import Fintrails.Calls

/-! Transfers are fetched by number, in a call of their own, for blocks that were reported by
hash.  By then the poller knows one block for each number: the last one that `block_ref`
was answered with, or else the one it had retained.  Everything `advance` returns as confirmed
comes from the reported blocks exactly if the known blocks are in place at each fetch. -/
namespace Fintrails

namespace Exchange

def fetched (x : Exchange) : List ChainEvent :=
  match x.request with
  | .transfers first last => (x.node.chain.segment first last).flatMap x.node.events
  | _ => []

def fetches (x : Exchange) : Bool :=
  match x.request with
  | .transfers _ _ => true
  | _ => false

/-- The blocks known by number, once the call is answered. -/
def learn (known : ℕ → Option BlockRef) (x : Exchange) : (ℕ → Option BlockRef) × Unit :=
  match x.request with
  | .blockRef n => (Function.update known n (some (x.node.chain.block n)),())
  | _ => (known,())

/-- At each height that is asked for, the chain has the block known there, or one that holds
no transfer which the known block does not hold. -/
def InPlace (known : ℕ → Option BlockRef) : Exchange → Prop
  | ⟨.transfers first last,node⟩ => ∀ n ≤ last, first ≤ n → n ≤ node.chain.height →
      node.events (node.chain.block n) ⊆ (known n).elim [] node.events
  | _ => True

instance inPlaceDecidable (known : ℕ → Option BlockRef) (x : Exchange) :
    Decidable (x.InPlace known) :=
  match x with
  | ⟨.headNumber,_⟩ => .isTrue trivial
  | ⟨.blockRef _,_⟩ => .isTrue trivial
  | ⟨.transfers first last,node⟩ => inferInstanceAs (Decidable (∀ n ≤ last, first ≤ n →
      n ≤ node.chain.height → node.events (node.chain.block n) ⊆ (known n).elim [] node.events))

theorem fetched_of_not_fetches {x : Exchange} (h : x.fetches = false) : x.fetched = [] := by
  obtain ⟨_ | n | ⟨first,last⟩,node⟩ := x <;> simp_all [fetches,fetched]

theorem inPlace_of_not_fetches {x : Exchange} (h : x.fetches = false)
    (known : ℕ → Option BlockRef) : x.InPlace known := by
  obtain ⟨_ | n | ⟨first,last⟩,node⟩ := x
  · trivial
  · trivial
  · cases h

end Exchange

abbrev InPlaceThroughout (known : ℕ → Option BlockRef) (calls : List Exchange) : Prop :=
  Machine.Guarded Exchange.learn Exchange.InPlace known calls

namespace Tracker

variable {t : Tracker} {known : ℕ → Option BlockRef}

/-- The blocks retained below `n` are the known ones. -/
def KnownBelow (known : ℕ → Option BlockRef) (t : Tracker) (n : ℕ) : Prop :=
  ∀ x ∈ t.chain, x.number < n → known x.number = some x

def Known (known : ℕ → Option BlockRef) (t : Tracker) : Prop :=
  ∀ x ∈ t.chain, known x.number = some x

theorem Sound.known_kept (h : t.Sound) {b : BlockRef} (hk : t.KnownBelow known b.number)
    (hb : known b.number = some b) : ∀ x ∈ t.kept b ++ [b], known x.number = some x := by
  intro x hx
  rcases List.mem_append.mp hx with hx | hx
  · have hlow := (h.linked_kept b).numbered.lt_of_append hx (List.mem_singleton_self b)
    exact hk x (Sound.mem_kept hx) hlow
  · rwa [List.mem_singleton.mp hx]

theorem Sound.known_observe (h : t.Sound) {b : BlockRef} (hk : t.KnownBelow known b.number)
    (hb : known b.number = some b) : (Tracker.observe t b).1.Known known := by
  intro x hx
  rw [observe_chain] at hx
  exact h.known_kept hk hb x ((trim_suffix _ _).subset hx)

theorem Sound.known_confirmed (h : t.Sound) {b : BlockRef} (hk : t.KnownBelow known b.number)
    (hb : known b.number = some b) :
    ∀ x ∈ (Tracker.observe t b).2.confirmed, known x.number = some x := by
  intro x hx
  rw [h.confirmed,Numbered.mem_slice] at hx
  exact h.known_kept hk hb x hx.1

theorem Sound.range_confirmed (h : t.Sound) {b : BlockRef} {first last : ℕ}
    (hrange : Poller.confirmedRange (Tracker.observe t b).2 = some (first,last)) (n : ℕ) :
    (∃ x ∈ (Tracker.observe t b).2.confirmed, x.number = n) ↔ first ≤ n ∧ n ≤ last := by
  have hfrom := (h.linked_kept b).numbered.from_slice (a:=t.pulled b)
    (b:=b.number+1-t.confirmations)
  rw [← h.confirmed] at hfrom
  generalize (Tracker.observe t b).2 = u at hrange hfrom
  simp only [Poller.confirmedRange,Option.bind_eq_bind,Option.bind_eq_some_iff,Option.pure_def,
    Option.some.injEq,Prod.mk.injEq] at hrange
  obtain ⟨x,hx,y,hy,rfl,rfl⟩ := hrange
  obtain ⟨rest,hrest⟩ := List.head?_eq_some_iff.mp hx
  obtain ⟨init,hinit⟩ := List.getLast?_eq_some_iff.mp hy
  have hlow : x.number = max (base (t.kept b ++ [b])) (t.pulled b) := by
    rw [hrest] at hfrom
    exact hfrom.1
  have hhigh : y.number+1 = max (base (t.kept b ++ [b])) (t.pulled b) + u.confirmed.length := by
    rw [hinit] at hfrom
    rw [((Numbered.from_append _ _ _).mp hfrom).2.1,hinit]
    simp [Nat.add_assoc]
  constructor
  · rintro ⟨z,hz,rfl⟩
    have hb := hfrom.bounds hz
    omega
  · rintro ⟨h1,h2⟩
    exact hfrom.exists_num (by omega) (by omega)

end Tracker

structure FetchedFor (events : BlockRef → List ChainEvent) (u : TrackerUpdate) (x : Exchange) :
    Prop where
  range : ∃ range ∈ Poller.confirmedRange u, x.request = .transfers range.1 range.2
  reported : ∀ e ∈ x.fetched, ∃ b ∈ u.confirmed, e ∈ events b

theorem forall₂_append_iff {α β : Type} {R : α → β → Prop} {l l' : List α} {m m' : List β}
    (h : l.length = m.length) :
    List.Forall₂ R (l++l') (m++m') ↔ List.Forall₂ R l m ∧ List.Forall₂ R l' m' := by
  induction l generalizing m with
  | nil =>
    obtain rfl := List.length_eq_zero_iff.mp h.symm
    simp
  | cons a l ih =>
    obtain ⟨b,m,rfl⟩ := List.exists_cons_of_length_eq_add_one h.symm
    have hrest := ih (m:=m) (by simpa using h)
    simp only [List.cons_append,List.forall₂_cons,hrest,and_assoc]

namespace Poller

variable {C : Type} {events : BlockRef → List ChainEvent}

/-- Between `p` and `q` the calls `used` were made, the tracker gave the updates `us`, and what
was sent as confirmed was fetched in these calls.  It came from reported blocks exactly if the
known blocks were in place. -/
structure Accounts (events : BlockRef → List ChainEvent) (known : ℕ → Option BlockRef)
    (p q : Poller Scripted C) (sent out : List IndexerMessage) (used : List Exchange)
    (us : List TrackerUpdate) : Prop where
  calls : p.source.calls = used ++ q.source.calls
  reports : q.reports = p.reports ++ us
  returned : ∀ e, IndexerMessage.confirmed e ∈ out ↔
    IndexerMessage.confirmed e ∈ sent ∨ ∃ x ∈ used, e ∈ x.fetched
  length_eq : (us.filter fun u => (confirmedRange u).isSome).length =
    (used.filter Exchange.fetches).length
  inPlace_iff : List.Forall₂ (FetchedFor events) (us.filter fun u => (confirmedRange u).isSome)
    (used.filter Exchange.fetches) ↔ InPlaceThroughout known used

theorem Accounts.trans {known : ℕ → Option BlockRef} {p q r : Poller Scripted C}
    {sent mid out : List IndexerMessage} {used used' : List Exchange} {us us' : List TrackerUpdate}
    (h : Accounts events known p q sent mid used us)
    (h' : Accounts events (Machine.final Exchange.learn known used) q r mid out used' us') :
    Accounts events known p r sent out (used++used') (us++us') where
  calls := by rw [h.calls,h'.calls,List.append_assoc]
  reports := by rw [h'.reports,h.reports,List.append_assoc]
  returned e := by
    rw [h'.returned,h.returned,or_assoc]
    simp only [List.mem_append,or_and_right,exists_or]
  length_eq := by
    simp only [List.filter_append,List.length_append,h.length_eq,h'.length_eq]
  inPlace_iff := by
    rw [List.filter_append,List.filter_append,forall₂_append_iff h.length_eq,h.inPlace_iff,
      h'.inPlace_iff]
    exact (Machine.guarded_append _ _ _).symm

theorem Accounts.remaining {known : ℕ → Option BlockRef} {p q : Poller Scripted C}
    {sent out : List IndexerMessage} {used : List Exchange} {us : List TrackerUpdate}
    (h : Accounts events known p q sent out used us)
    (hnodes : ∀ x ∈ p.source.calls, x.node.events = events) :
    ∀ x ∈ q.source.calls, x.node.events = events := by
  intro x hx
  refine hnodes x ?_
  rw [h.calls]
  exact List.mem_append_right _ hx

theorem accounts_quiet (known : ℕ → Option BlockRef) {p : Poller Scripted C} {used rest : List Exchange}
    (hcalls : p.source.calls = used ++ rest) (hquiet : ∀ x ∈ used, x.fetches = false)
    (sent : List IndexerMessage) :
    Accounts events known p { p with source := ⟨rest⟩ } sent sent used [] := by
  have hfilter : used.filter Exchange.fetches = [] :=
    List.filter_eq_nil_iff.mpr fun x hx => by simp [hquiet x hx]
  have hnone : ∀ e, ¬∃ x ∈ used, e ∈ x.fetched := by
    rintro e ⟨x,hx,he⟩
    rw [Exchange.fetched_of_not_fetches (hquiet x hx)] at he
    cases he
  have hall : InPlaceThroughout known used :=
    Machine.guarded_of_forall fun x hx known => Exchange.inPlace_of_not_fetches (hquiet x hx) known
  refine ⟨hcalls,(List.append_nil _).symm,fun e => by simp [hnone e],by simp [hfilter],?_⟩
  rw [hfilter]
  exact ⟨fun _ => hall,fun _ => .nil⟩

theorem fetch_scripted {α : Type} {request : Request}
    {call : Node → Except SourceError α × Node} {p q : Poller Scripted C} {a : α}
    (h : (fetch (Scripted.answer request call)).run p = .ok a q) :
    ∃ node rest, p.source.calls = ⟨request,node⟩::rest ∧ (call node).1 = .ok a ∧
      q = { p with source := ⟨rest⟩ } := by
  obtain ⟨hanswer,rfl⟩ := fetch_ok h
  obtain ⟨⟨_,node⟩,hcalls,rfl,hnode⟩ := Scripted.answer_ok hanswer
  exact ⟨node,_,hcalls,hnode,rfl⟩

theorem blockRef_scripted {p q : Poller Scripted C} {n : ℕ} {b : BlockAt n}
    (h : (fetch (BlockSource.blockRef n) : Method Scripted C (BlockAt n)).run p = .ok b q) :
    ∃ node rest, p.source.calls = ⟨.blockRef n,node⟩::rest ∧ n ≤ node.chain.height ∧
      b.val = node.chain.block n ∧ q = { p with source := ⟨rest⟩ } := by
  obtain ⟨node,rest,hcalls,hnode,rfl⟩ := fetch_scripted h
  refine ⟨node,rest,hcalls,?_⟩
  by_cases hle : n ≤ node.chain.height
  · simp only [BlockSource.blockRef,hle,dite_true,Except.ok.injEq] at hnode
    exact ⟨hle,by rw [← hnode],rfl⟩
  · simp [BlockSource.blockRef,hle] at hnode

/-- What a fetch yields comes from the blocks of an update, the known ones of its range, exactly
if these are in place. -/
theorem fetchedFor_iff {known : ℕ → Option BlockRef} {u : TrackerUpdate} {node : Node}
    {first last : ℕ} (hnumber : ∀ b, ∀ e ∈ events b, e.blockNumber = b.number)
    (hevents : node.events = events) (hrange : confirmedRange u = some (first,last))
    (hknown : ∀ x ∈ u.confirmed, known x.number = some x)
    (hnumbers : ∀ n, (∃ x ∈ u.confirmed, x.number = n) ↔ first ≤ n ∧ n ≤ last) :
    FetchedFor events u ⟨.transfers first last,node⟩ ↔
      Exchange.InPlace known ⟨.transfers first last,node⟩ := by
  subst hevents
  constructor
  · rintro ⟨-,hreported⟩ n hlast hfirst hn e he
    obtain ⟨b,hb,heb⟩ := hreported e
      (List.mem_flatMap.mpr ⟨_,Chain.mem_segment.mpr ⟨n,hfirst,hlast,hn,rfl⟩,he⟩)
    have hsame : b.number = n := by
      rw [← hnumber b e heb,hnumber _ e he,node.chain.number_block n hn]
    have hat := hknown b hb
    rw [hsame] at hat
    rw [hat]
    exact heb
  · intro hplace
    refine ⟨⟨_,hrange,rfl⟩,fun e he => ?_⟩
    obtain ⟨_,hmem,heb⟩ := List.mem_flatMap.mp he
    obtain ⟨n,hfirst,hlast,hn,rfl⟩ := Chain.mem_segment.mp hmem
    obtain ⟨b,hb,rfl⟩ := (hnumbers n).mpr ⟨hfirst,hlast⟩
    have hin := hplace b.number hlast hfirst hn heb
    rw [hknown b hb] at hin
    exact ⟨b,hb,hin⟩

theorem handOver_accounts {known : ℕ → Option BlockRef}
    (hnumber : ∀ b, ∀ e ∈ events b, e.blockNumber = b.number) {p q : Poller Scripted C}
    (hnodes : ∀ x ∈ p.source.calls, x.node.events = events) (hs : p.tracker.Sound) {b : BlockRef}
    (hk : p.tracker.KnownBelow known b.number) (hb : known b.number = some b)
    {sent out : List IndexerMessage} (h : (handOver b sent).run p = .ok out q) :
    q.tracker = (p.tracker.observe b).1 ∧ ∃ used, (∀ x ∈ used, x.fetches = true) ∧
      Accounts events known p q sent out used [(p.tracker.observe b).2] := by
  have hnotice : ∀ e, IndexerMessage.confirmed e ∉ orphanNotice (p.tracker.observe b).2 := by
    intro e
    simp only [orphanNotice]
    split <;> simp
  obtain ⟨u,r,hobserve,hrest⟩ := bind_ok h
  rw [observed_singleton] at hobserve
  cases hobserve
  cases hrange : confirmedRange (p.tracker.observe b).2 with
  | none =>
    simp only [hrange] at hrest
    obtain ⟨rfl,rfl⟩ := pure_ok hrest
    refine ⟨rfl,[],by simp,rfl,rfl,fun e => by simp [hnotice e],by simp [hrange],?_⟩
    rw [List.filter_cons_of_neg (by simp [hrange])]
    exact ⟨fun _ => trivial,fun _ => .nil⟩
  | some range =>
    obtain ⟨first,last⟩ := range
    simp only [hrange] at hrest
    obtain ⟨fetched,r,hfetch,hpure⟩ := bind_ok hrest
    obtain ⟨node,rest,hcalls,hanswer,rfl⟩ := fetch_scripted hfetch
    obtain ⟨rfl,rfl⟩ := pure_ok hpure
    change p.source.calls = _ at hcalls
    have hevents : node.events = events := hnodes ⟨.transfers first last,node⟩ (by simp [hcalls])
    have hfetched : Exchange.fetched ⟨.transfers first last,node⟩ = fetched :=
      Except.ok.inj hanswer
    have hfetches : Exchange.fetches ⟨.transfers first last,node⟩ = true := rfl
    refine ⟨rfl,[⟨.transfers first last,node⟩],by simp [hfetches],hcalls,rfl,fun e => ?_,
      by simp [hrange,hfetches],?_⟩
    · simp [hnotice e,hfetched]
    · rw [List.filter_cons_of_pos (by simp [hrange]),List.filter_cons_of_pos hfetches,
        List.filter_nil,List.filter_nil,List.forall₂_cons,fetchedFor_iff hnumber hevents hrange
        (hs.known_confirmed hk hb) (hs.range_confirmed hrange)]
      exact and_congr_right fun _ => ⟨fun _ => trivial,fun _ => .nil⟩

/-- A branch whose blocks are known, numbered from `lo` on, above known blocks. -/
structure Ready (known : ℕ → Option BlockRef) (t : Tracker) (lo : ℕ) (branch : List BlockRef) :
    Prop where
  numbered : Numbered.From BlockRef.number lo branch
  knows : ∀ b ∈ branch, known b.number = some b
  small : ∀ b ∈ branch, b.number < 2^64-1
  below : t.KnownBelow known lo

theorem final_learn_of_fetches {known : ℕ → Option BlockRef} {used : List Exchange}
    (h : ∀ x ∈ used, x.fetches = true) : Machine.final Exchange.learn known used = known := by
  induction used with
  | nil => rfl
  | cons x used ih =>
    have hx := h x (by simp)
    obtain ⟨_ | n | ⟨first,last⟩,node⟩ := x
    · cases hx
    · cases hx
    · exact ih fun y hy => h y (by simp [hy])

theorem handOverAll_accounts {known : ℕ → Option BlockRef}
    (hnumber : ∀ b, ∀ e ∈ events b, e.blockNumber = b.number) {p q : Poller Scripted C}
    (hnodes : ∀ x ∈ p.source.calls, x.node.events = events) (hs : p.tracker.Sound) {lo : ℕ}
    {branch : List BlockRef} (hready : Ready known p.tracker lo branch)
    {sent out : List IndexerMessage} (h : (handOverAll branch sent).run p = .ok out q) :
    q.tracker.Sound ∧ (branch ≠ [] → q.tracker.Known known) ∧ ∃ used us,
      (∀ x ∈ used, x.fetches = true) ∧ Accounts events known p q sent out used us := by
  induction branch generalizing p lo sent with
  | nil =>
    obtain ⟨rfl,rfl⟩ := pure_ok h
    exact ⟨hs,by simp,[],[],by simp,accounts_quiet known (by simp) (by simp) _⟩
  | cons b branch ih =>
    obtain ⟨mid,r,hone,hrest⟩ := bind_ok h
    have hb := hready.knows b (by simp)
    have hbelow : p.tracker.KnownBelow known b.number := hready.numbered.1 ▸ hready.below
    obtain ⟨htracker,used,hused,haccounts⟩ := handOver_accounts hnumber hnodes hs hbelow hb hone
    have hknown : r.tracker.Known known := by
      rw [htracker]
      exact hs.known_observe hbelow hb
    have hsound : r.tracker.Sound := by
      rw [htracker]
      exact hs.observe (hready.small b (by simp))
    obtain ⟨hqs,hq,used',us,hused',haccounts'⟩ := ih
      (haccounts.remaining hnodes) hsound
      ⟨hready.numbered.2,fun c hc => hready.knows c (by simp [hc]),
        fun c hc => hready.small c (by simp [hc]),fun x hx _ => hknown x hx⟩ hrest
    refine ⟨hqs,fun _ => ?_,_,_,?_,haccounts.trans (by rwa [final_learn_of_fetches hused])⟩
    · cases branch with
      | nil =>
        obtain ⟨-,rfl⟩ := pure_ok hrest
        exact hknown
      | cons c branch => exact hq (by simp)
    · intro x hx
      rcases List.mem_append.mp hx with hx | hx
      · exact hused x hx
      · exact hused' x hx

theorem knownBelow_learn {known : ℕ → Option BlockRef} {t : Tracker} {n : ℕ}
    (h : t.KnownBelow known n) (node : Node) :
    t.KnownBelow (Exchange.learn known ⟨.blockRef n,node⟩).1 n := by
  intro x hx hlt
  rw [← h x hx hlt]
  exact Function.update_of_ne hlt.ne _ _

theorem walk_accounts {known : ℕ → Option BlockRef} {p q : Poller Scripted C} {n : ℕ} {tip : BlockAt n}
    {branch out : List BlockRef} (hready : Ready known p.tracker n branch)
    (h : (walk n tip branch).run p = .ok out q) :
    ∃ used rest lo, p.source.calls = used ++ rest ∧ q = { p with source := ⟨rest⟩ } ∧
      (∀ x ∈ used, x.fetches = false) ∧ branch.length ≤ out.length ∧
      Ready (Machine.final Exchange.learn known used) p.tracker lo out := by
  induction n generalizing known p branch with
  | zero =>
    obtain ⟨rfl,rfl⟩ := pure_ok h
    exact ⟨[],_,0,rfl,rfl,by simp,le_refl _,hready⟩
  | succ n ih =>
    by_cases hstop : ∀ b ∈ p.tracker.blockAt n, b.hash = tip.val.parentHash
    · rw [walk_stop branch hstop] at h
      cases h
      exact ⟨[],_,n+1,rfl,rfl,by simp,le_refl _,hready⟩
    · push Not at hstop
      obtain ⟨other,hat,hk⟩ := hstop
      rw [walk_step branch hat hk] at h
      obtain ⟨parent,r,hfetch,hwalk⟩ := bind_ok h
      obtain ⟨node,rest,hcalls,hn,hparent,rfl⟩ := blockRef_scripted hfetch
      have hnum := parent.property
      have hnext : Ready (Exchange.learn known ⟨.blockRef n,node⟩).1 p.tracker n
          (parent.val::branch) := by
        refine ⟨⟨hnum,hready.numbered⟩,fun b hb => ?_,fun b hb => ?_,knownBelow_learn ?_ node⟩
        · rcases List.mem_cons.mp hb with rfl | hb
          · rw [hnum,hparent]
            exact Function.update_self _ _ _
          · have hle := (hready.numbered.bounds hb).1
            rw [← hready.knows b hb]
            exact Function.update_of_ne (by omega) _ _
        · rcases List.mem_cons.mp hb with rfl | hb
          · rw [hparent]
            exact node.chain.number_lt hn
          · exact hready.small b hb
        · exact fun x hx hlt => hready.below x hx (by omega)
      obtain ⟨used,rest',lo,hcalls',rfl,hused,hlength,hout⟩ :=
        ih (p:={ p with source := ⟨rest⟩ }) hnext hwalk
      obtain rfl : rest = used ++ rest' := hcalls'
      refine ⟨⟨.blockRef n,node⟩::used,rest',lo,hcalls,rfl,?_,?_,hout⟩
      · intro x hx
        rcases List.mem_cons.mp hx with rfl | hx
        · rfl
        · exact hused x hx
      · simp only [List.length_cons] at hlength
        omega

theorem feed_accounts {known : ℕ → Option BlockRef}
    (hnumber : ∀ b, ∀ e ∈ events b, e.blockNumber = b.number) {p q : Poller Scripted C}
    (hnodes : ∀ x ∈ p.source.calls, x.node.events = events) (hs : p.tracker.Sound) {b : BlockRef}
    (hsmall : b.number < 2^64-1) (hk : p.tracker.KnownBelow known b.number)
    (hb : known b.number = some b) {sent out : List IndexerMessage}
    (h : (feed b sent).run p = .ok out q) :
    q.tracker.Sound ∧ ∃ used us, q.tracker.Known (Machine.final Exchange.learn known used) ∧
      Accounts events known p q sent out used us := by
  obtain ⟨branch,r,hwalk,hrest⟩ := bind_ok h
  have hstart : Ready known p.tracker b.number [b] :=
    ⟨⟨rfl,trivial⟩,by simpa using hb,by simpa using hsmall,hk⟩
  obtain ⟨used,rest,lo,hcalls,rfl,hused,hlength,hready⟩ := walk_accounts hstart hwalk
  have hquiet := @accounts_quiet _ events known p used rest hcalls hused sent
  obtain ⟨hqs,hq,used',us,hused',haccounts⟩ := handOverAll_accounts hnumber
    (hquiet.remaining hnodes) hs hready hrest
  refine ⟨hqs,used ++ used',[] ++ us,?_,hquiet.trans haccounts⟩
  rw [Machine.final_append,final_learn_of_fetches hused']
  exact hq (List.ne_nil_of_length_pos (Nat.lt_of_lt_of_le Nat.one_pos hlength))

theorem fetchFeed_accounts {known : ℕ → Option BlockRef}
    (hnumber : ∀ b, ∀ e ∈ events b, e.blockNumber = b.number) {p q r : Poller Scripted C}
    (hnodes : ∀ x ∈ p.source.calls, x.node.events = events) (hs : p.tracker.Sound)
    (hk : p.tracker.Known known) {n : ℕ} {b : BlockAt n} {sent out : List IndexerMessage}
    (hfetch : (fetch (BlockSource.blockRef n) : Method Scripted C (BlockAt n)).run p = .ok b q)
    (h : (feed b.val sent).run q = .ok out r) :
    r.tracker.Sound ∧ ∃ used us, r.tracker.Known (Machine.final Exchange.learn known used) ∧
      Accounts events known p r sent out used us := by
  obtain ⟨node,rest,hcalls,hn,hb,rfl⟩ := blockRef_scripted hfetch
  have hquiet := @accounts_quiet _ events known p [⟨.blockRef n,node⟩] rest hcalls
    (by simp [Exchange.fetches]) sent
  have hknown : (Exchange.learn known ⟨.blockRef n,node⟩).1 b.val.number = some b.val := by
    rw [b.property,hb]
    exact Function.update_self _ _ _
  have hbelow : p.tracker.KnownBelow (Exchange.learn known ⟨.blockRef n,node⟩).1 b.val.number := by
    rw [b.property]
    exact knownBelow_learn (fun x hx _ => hk x hx) node
  obtain ⟨hrs,used,us,hr,haccounts⟩ := feed_accounts hnumber
    (hquiet.remaining hnodes) hs
    (by rw [hb]; exact node.chain.number_lt hn) hbelow hknown h
  refine ⟨hrs,_,_,?_,hquiet.trans haccounts⟩
  exact hr

theorem feedNumbers_accounts {known : ℕ → Option BlockRef}
    (hnumber : ∀ b, ∀ e ∈ events b, e.blockNumber = b.number) {p q : Poller Scripted C}
    (hnodes : ∀ x ∈ p.source.calls, x.node.events = events) (hs : p.tracker.Sound)
    (hk : p.tracker.Known known) {ns : List ℕ} {sent out : List IndexerMessage}
    (h : (feedNumbers ns sent).run p = .ok out q) :
    ∃ used us, Accounts events known p q sent out used us := by
  induction ns generalizing known p sent with
  | nil =>
    obtain ⟨rfl,rfl⟩ := pure_ok h
    exact ⟨[],[],accounts_quiet known (by simp) (by simp) _⟩
  | cons n ns ih =>
    obtain ⟨b,r,hfetch,hrest⟩ := bind_ok h
    obtain ⟨mid,s,hfeed,hrest⟩ := bind_ok hrest
    obtain ⟨hss,used,us,hsk,haccounts⟩ := fetchFeed_accounts hnumber hnodes hs hk hfetch hfeed
    obtain ⟨used',us',haccounts'⟩ := ih (haccounts.remaining hnodes) hss hsk hrest
    exact ⟨_,_,haccounts.trans haccounts'⟩

theorem collect_accounts (hnumber : ∀ b, ∀ e ∈ events b, e.blockNumber = b.number)
    {p q : Poller Scripted C} (hnodes : ∀ x ∈ p.source.calls, x.node.events = events)
    (hs : p.tracker.Sound) {out : List IndexerMessage} (h : collect.run p = .ok out q) :
    ∃ used us, Accounts events p.tracker.blockAt p q [] out used us := by
  obtain ⟨headNum,r,hhead,hrest⟩ := bind_ok h
  obtain ⟨node,rest,hcalls,-,rfl⟩ := fetch_scripted hhead
  have hquiet := @accounts_quiet _ events p.tracker.blockAt p [⟨.headNumber,node⟩] rest hcalls
    (by simp [Exchange.fetches]) []
  have hnodes' : ∀ x ∈ rest, x.node.events = events := fun x hx => hnodes x (by simp [hcalls,hx])
  have hk : p.tracker.Known p.tracker.blockAt := fun x hx => hs.blockAt_mem hx
  simp only [EStateM.run_bind,EStateM.run_get] at hrest
  cases htop : p.tracker.head.map BlockRef.number with
  | none =>
    simp only [htop] at hrest
    obtain ⟨used,us,haccounts⟩ := feedNumbers_accounts hnumber (p:={ p with source := ⟨rest⟩ }) hnodes' hs hk
      hrest
    exact ⟨_,_,hquiet.trans haccounts⟩
  | some th =>
    simp only [htop] at hrest
    by_cases hgrew : th < headNum
    · simp only [hgrew,if_true] at hrest
      obtain ⟨used,us,haccounts⟩ := feedNumbers_accounts hnumber (p:={ p with source := ⟨rest⟩ }) hnodes' hs
        hk hrest
      exact ⟨_,_,hquiet.trans haccounts⟩
    · simp only [hgrew,if_false] at hrest
      obtain ⟨b,r,hfetch,hrest⟩ := bind_ok hrest
      split at hrest
      · obtain ⟨node',rest',hcalls',-,-,rfl⟩ := blockRef_scripted hfetch
        obtain ⟨rfl,rfl⟩ := pure_ok hrest
        have hsame := @accounts_quiet _ events p.tracker.blockAt { p with source := ⟨rest⟩ }
          [⟨.blockRef headNum,node'⟩] rest' hcalls' (by simp [Exchange.fetches]) []
        exact ⟨_,_,hquiet.trans hsame⟩
      · obtain ⟨-,used,us,-,haccounts⟩ := fetchFeed_accounts hnumber (p:={ p with source := ⟨rest⟩ }) hnodes'
          hs hk hfetch hrest
        exact ⟨_,_,hquiet.trans haccounts⟩

section Advance

variable [Checkpoint C]

/-- Every confirmed transfer that is returned was fetched in one of the calls, and each fetch was
for the blocks that one update reports as confirmed, which hold all it yields. -/
structure FromConfirmed (events : BlockRef → List ChainEvent) (calls : List Exchange)
    (us : List TrackerUpdate) (msgs : List IndexerMessage) : Prop where
  returned : ∀ e, IndexerMessage.confirmed e ∈ msgs ↔ ∃ x ∈ calls, e ∈ x.fetched
  triggered : List.Forall₂ (FetchedFor events) (us.filter fun u => (confirmedRange u).isSome)
    (calls.filter Exchange.fetches)

theorem advance_scripted_ok {p q : Poller Scripted C} {msgs : List IndexerMessage}
    (h : advance.run p = .ok msgs q) : ∃ r, collect.run p = .ok msgs r ∧
      q.source = r.source ∧ q.reports = r.reports := by
  obtain ⟨out,r,hcollect,hrest⟩ := bind_ok h
  refine ⟨r,?_⟩
  obtain ⟨_,_,hget,hrest⟩ := bind_ok hrest
  cases hget
  cases hdue : r.dueSave with
  | none =>
    simp only [hdue,EStateM.run_pure] at hrest
    cases hrest
    exact ⟨hcollect,rfl,rfl⟩
  | some height =>
    simp only [hdue] at hrest
    obtain ⟨_,s,hsave,hpure⟩ := bind_ok hrest
    obtain ⟨rfl,rfl⟩ := pure_ok hpure
    refine ⟨hcollect,?_⟩
    simp only [save,EStateM.run] at hsave
    split at hsave
    · cases hsave
      exact ⟨rfl,rfl⟩
    · cases hsave

/-- However the chain is replaced between the calls of `advance`, everything it returns as
confirmed comes from the blocks that the triggering update reports exactly if at each fetch the
chain holds no transfer, at the heights asked for, that the block known there does not hold. -/
theorem confirmed_in_place_iff (hnumber : ∀ b, ∀ e ∈ events b, e.blockNumber = b.number)
    {p q : Poller Scripted C} (hs : p.tracker.Sound)
    (hnodes : ∀ x ∈ p.source.calls, x.node.events = events) {msgs : List IndexerMessage}
    (h : advance.run p = .ok msgs q) (hcalls : q.source.calls = []) :
    FromConfirmed events p.source.calls (q.reports.drop p.reports.length) msgs ↔
      InPlaceThroughout p.tracker.blockAt p.source.calls := by
  obtain ⟨r,hcollect,hsource,hreports⟩ := advance_scripted_ok h
  obtain ⟨used,us,haccounts⟩ := collect_accounts hnumber hnodes hs hcollect
  rw [hreports,haccounts.reports,List.drop_left,haccounts.calls,← hsource,hcalls,List.append_nil,
    ← haccounts.inPlace_iff]
  exact ⟨fun hfrom => hfrom.triggered,fun htriggered =>
    ⟨fun e => by rw [haccounts.returned]; simp,htriggered⟩⟩

end Advance

def scripted (calls : List Exchange) : Poller Scripted NoCheckpoint :=
  new ⟨calls⟩ (Tracker.fresh 1 3 (by decide)) 0

def serving (events : BlockRef → List ChainEvent) (c : Chain) : Node :=
  { Node.quiet c with events := events }

def replacedAbove : List Exchange :=
  let before := serving World.linear.events (.linear 1 (by decide))
  let after := serving World.linear.events (.branching 1 1 (by decide))
  [⟨.headNumber,before⟩,⟨.blockRef 0,before⟩,⟨.blockRef 1,after⟩,⟨.transfers 0 0,after⟩]

theorem confirmed_in_place_above : ∃ msgs q, advance.run (scripted replacedAbove) = .ok msgs q ∧
    FromConfirmed World.linear.events replacedAbove q.reports msgs := by
  refine ⟨_,_,rfl,(confirmed_in_place_iff (p:=scripted replacedAbove) World.linear.events_number
    (Tracker.fresh_sound _ _ _) ?_ rfl rfl).mpr (by decide +kernel)⟩
  simp [scripted,new,replacedAbove,serving]

def otherGenesis : Chain := .branching 0 0 (by decide)

def otherHolds (b : BlockRef) : List ChainEvent :=
  if b = otherGenesis.block 0 then [⟨9,1,2,70,0,3,0⟩] else []

/-- The chain is replaced just before the transfers of block 0 are asked for. -/
def replacedBelow : List Exchange :=
  let before := serving otherHolds (.linear 1 (by decide))
  [⟨.headNumber,before⟩,⟨.blockRef 0,before⟩,⟨.blockRef 1,before⟩,
    ⟨.transfers 0 0,serving otherHolds otherGenesis⟩]

/-- The transfer that is returned lies in a block without any confirmations. -/
theorem confirmed_out_of_place : ∃ msgs q e, advance.run (scripted replacedBelow) = .ok msgs q ∧
    q.source.calls = [] ∧ IndexerMessage.confirmed e ∈ msgs ∧
    q.reports = [⟨[],[]⟩,⟨[Tracker.block 0],[]⟩] ∧
    ∀ u ∈ q.reports, ∀ b ∈ u.confirmed, e ∉ otherHolds b :=
  ⟨_,_,⟨9,1,2,70,0,3,0⟩,rfl,rfl,by decide +kernel,by decide +kernel,by decide +kernel⟩

end Poller
end Fintrails
