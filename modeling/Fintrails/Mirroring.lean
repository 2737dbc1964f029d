import Fintrails.Holdings
import Fintrails.Redelivery

/-! The ledger next to the token contracts whose transfers it books.  As long as nobody pays
more than he has and no supply outgrows the ledger's amounts, every balance can be read, and
what it reads is what the account's holdings have changed by. -/
namespace Fintrails

open ChainEvent InMemoryStore Holdings

/-- What a transfer event says to the token contract.  Transfers from and to the zero address
issue and destroy. -/
def ChainEvent.move (e : ChainEvent) : TokenMove Address Address :=
  ⟨e.token,e.sender,e.receiver,e.value.toNat⟩

namespace Recon

variable {hex : LowerHex} {build : Build} {order : HashOrder (Σ _ : Asset, I128)}
  {e : ChainEvent} {events : List ChainEvent} {cap : ℕ} {s s₁ s' : Holdings Address Address}

theorem matching_mirror (e : ChainEvent) (a token : Address) :
    matching (accountOf hex a) (assetOf hex token) (mirror hex e).postings =
      (if e.sender = a ∧ e.token = token then [-BitVec.ofNat 128 e.value.toNat] else []) ++
        if e.receiver = a ∧ e.token = token then [BitVec.ofNat 128 e.value.toNat] else [] := by
  simp only [matching,mirror,List.filter_cons,List.filter_nil,(accountOf_injective hex).eq_iff,
    (assetOf_injective hex).eq_iff,Bool.and_eq_true,decide_eq_true_eq]
  split_ifs <;> rfl

theorem checkedSum_mirror {acc : I128} {a token : Address} (h : e.Fits)
    (hdebit : e.sender = a → e.receiver = a → e.token = token →
      Signed.InRange 128 (acc.toInt-e.value.toNat))
    (hboth : Signed.InRange 128 (acc.toInt + (received a token [e] - sent a token [e]))) :
    ∃ sum, Signed.checkedSum acc (matching (accountOf hex a) (assetOf hex token)
        (mirror hex e).postings) = some sum ∧
      sum.toInt = acc.toInt + (received a token [e] - sent a token [e]) := by
  have hcredit := toInt_ofNat h
  have hneg := toInt_neg_ofNat h
  rw [matching_mirror,Signed.checkedSum_append]
  generalize BitVec.ofNat 128 e.value.toNat = amount at hcredit hneg ⊢
  simp only [received,sent,List.map_cons,List.map_nil,List.sum_cons,List.sum_nil,add_zero] at hboth ⊢
  have hfirst : Signed.InRange 128
      (acc.toInt + if e.sender = a ∧ e.token = token then (-amount).toInt else 0) := by
    by_cases hs : e.sender = a ∧ e.token = token
    · by_cases hr : e.receiver = a ∧ e.token = token
      · have hmid := hdebit hs.1 hr.1 hs.2
        rwa [if_pos hs,hneg,← sub_eq_add_neg]
      · rw [if_pos hs,if_neg hr,zero_sub] at hboth
        rwa [if_pos hs,hneg]
    · rw [if_neg hs,add_zero]
      exact Signed.inRange_toInt acc
  obtain ⟨mid,hmid,hmidInt⟩ := Signed.checkedSum_if hfirst
  have hmoved : mid.toInt + (if e.receiver = a ∧ e.token = token then amount.toInt else 0) =
      acc.toInt + ((if e.receiver = a ∧ e.token = token then (e.value.toNat : ℤ) else 0) -
        if e.sender = a ∧ e.token = token then (e.value.toNat : ℤ) else 0) := by
    rw [hmidInt,hneg,hcredit]
    split <;> split <;> omega
  rw [← hmoved] at hboth ⊢
  obtain ⟨sum,hsum,hint⟩ := Signed.checkedSum_if hboth
  exact ⟨sum,by rw [hmid]; exact hsum,hint⟩

theorem position_move (h : Pays 0 e.move s s₁) (token a : Address) :
    s₁.position 0 token a = s.position 0 token a + (received a token [e] - sent a token [e]) := by
  have hmoved : s₁.position 0 token a = s.position 0 token a -
      (if e.sender = a ∧ e.token = token then (e.value.toNat : ℤ) else 0) +
        if e.receiver = a ∧ e.token = token then (e.value.toNat : ℤ) else 0 := h.position token a
  simp only [received,sent,List.map_cons,List.map_nil,List.sum_cons,List.sum_nil,add_zero]
  rw [hmoved]
  ring

theorem fits_of_pays (h : Pays 0 e.move s s₁) (hcap : cap < 2^127) (hs : s.Capped cap)
    (hs₁ : s₁.Capped cap) : e.Fits :=
  (h.value_le hs hs₁).trans_lt hcap

theorem fits_of_plays (hcap : cap < 2^127) (h : Plays 0 cap (events.map move) s s') :
    ∀ e ∈ events, e.Fits := by
  induction events generalizing s with
  | nil => simp
  | cons e events ih =>
    obtain _ | ⟨hs,hpays,hrest⟩ := h
    intro d hd
    rcases List.mem_cons.mp hd with rfl | hd
    · exact fits_of_pays hpays hcap hs hrest.capped_start
    · exact ih hrest d hd

/-- The running balance follows the contract: it is ahead of the holdings by what they were at
the start. -/
theorem checkedSum_plays {start : Holdings Address Address} (hstart : start.Capped cap)
    (hcap : cap < 2^127) (h : Plays 0 cap (events.map move) s s') {a token : Address} {acc : I128}
    (hacc : acc.toInt = s.position 0 token a - start.position 0 token a) :
    ∃ sum, Signed.checkedSum acc (matching (accountOf hex a) (assetOf hex token)
        ((events.map (mirror hex)).flatMap Transaction.postings)) = some sum ∧
      sum.toInt = s'.position 0 token a - start.position 0 token a := by
  induction events generalizing s acc with
  | nil =>
    cases h
    exact ⟨acc,rfl,hacc⟩
  | cons e events ih =>
    obtain _ | @⟨_,_,_,s₁,_,hs,hpays,hrest⟩ := h
    have hs₁ := hrest.capped_start
    have hnext := position_move hpays token a
    have hbounds := hs₁.position_sub hstart 0 token a
    obtain ⟨mid,hmid,hmidInt⟩ := @checkedSum_mirror hex e acc a token
      (fits_of_pays hpays hcap hs hs₁) (by
        rintro hsender hreceiver rfl
        have hbetween := hpays.between hs hstart hsender hreceiver
        simp only [move] at hbetween
        simp only [Signed.InRange]
        omega) (by
        simp only [Signed.InRange]
        omega)
    have hacc₁ : mid.toInt = s₁.position 0 token a - start.position 0 token a := by
      omega
    obtain ⟨sum,hsum,hint⟩ := ih hrest hacc₁
    refine ⟨sum,?_,hint⟩
    rw [List.map_cons,List.flatMap_cons,matching_append,Signed.checkedSum_append,hmid]
    exact hsum

/-- Every balance of the ledger is returned, and is what the position of the account has become
since `start`. -/
def Mirrors (hex : LowerHex) (ledger : InMemoryStore) (start s : Holdings Address Address) : Prop :=
  ∀ a token, ∃ balance, ledger.balance (accountOf hex a) (assetOf hex token) = .ok balance ∧
    balance.toInt = s.position 0 token a - start.position 0 token a

theorem mirrors_of_plays (hcap : cap < 2^127) (h : Plays 0 cap ((distinctLogs events).map move) s s') :
    Mirrors hex (delivered hex build order events) s s' := by
  intro a token
  obtain ⟨balance,hsum,hint⟩ := @checkedSum_plays hex _ _ _ _ _ h.capped_start hcap h a token 0
    (by simp)
  refine ⟨balance,?_,hint⟩
  rw [InMemoryStore.balance,balanceOf_eq_ok_iff,delivered,journal_deliver]
  exact hsum

theorem distinctLogs_of_plays (hagree : Agree events) (hcap : cap < 2^127)
    (h : Plays 0 cap ((firsts log events).map move) s s') :
    distinctLogs events = firsts log events := by
  have hfits := fits_of_plays hcap h
  rw [distinctLogs,List.filter_eq_self.mpr]
  intro e he
  obtain ⟨d,hd,hlog⟩ := List.mem_map.mp (Firsts.mem_map_firsts.mpr (List.mem_map_of_mem (f:=log) he))
  have hsame := hagree d ((Firsts.firsts_sublist _).subset hd) e he hlog
  exact decide_eq_true ((Fits.congr hsame).mp (hfits d hd))

/-- While the transfers of token contracts are delivered, each of them any number of times once it
was, the ledger takes all of them and mirrors the contracts at every moment. -/
theorem redeliveries_mirror (hex : LowerHex) (build : Build) (order : HashOrder (Σ _ : Asset, I128))
    (events : List ChainEvent) (hagree : Agree events) (cap : ℕ) (hcap : cap < 2^127)
    (s s' : Holdings Address Address) (hplays : Plays 0 cap ((firsts log events).map move) s s')
    (before after : List ChainEvent) (hsplit : events = before ++ after) :
    (∃ mid, Plays 0 cap ((firsts log before).map move) s mid ∧
      Mirrors hex (delivered hex build order before) s mid) ∧
    ∀ e, after.head? = some e →
      (deliver hex build order (delivered hex build order before) e).2 = some (.ok ()) := by
  subst hsplit
  have hall := distinctLogs_of_plays hagree hcap hplays
  rw [Firsts.firsts_append,List.map_append] at hplays
  obtain ⟨mid,hmid⟩ := hplays.of_append
  have hbefore := hagree.mono (List.subset_append_left before after)
  refine ⟨⟨mid,hmid,mirrors_of_plays hcap ?_⟩,?_⟩
  · rwa [distinctLogs_of_plays hbefore hcap hmid]
  · intro e he
    obtain ⟨rest,rfl⟩ := List.head?_eq_some_iff.mp he
    obtain ⟨d,hd,hlog⟩ := List.mem_map.mp
      (Firsts.mem_map_firsts.mpr (List.mem_map_of_mem (f:=log) (show e ∈ before ++ e::rest by simp)))
    rw [← hall] at hd
    obtain ⟨hmem,hfits⟩ := fits_of_mem_distinctLogs hd
    exact deliver_accepts (hagree.mono (by simp))
      ((Fits.congr (hagree d hmem e (by simp) hlog)).mp hfits)

/-- Account 1 is issued 70, pays 30 to account 2, and the first of the two is delivered again. -/
theorem redeliveries_mirror_paid :
    let issue : ChainEvent := ⟨9,0,1,70,5,3,0⟩
    let pay : ChainEvent := ⟨9,1,2,30,6,4,0⟩
    let order : HashOrder (Σ _ : Asset, I128) := ⟨id,fun _ => .refl _⟩
    ∃ mid, Plays 0 70 ([issue,pay].map move) 0 mid ∧
      Mirrors .fixed (delivered .fixed .checked order [issue,pay,issue]) 0 mid := by
  intro issue pay order
  have hissued : Pays 0 issue.move 0 (share 0 9 1 40 + share 0 9 1 30) := by
    refine ⟨by decide,0,?_,?_⟩
    · rw [show issue.move.sender = 0 from rfl,share_nobody,add_zero]
    · rw [zero_add,← share_add]
      rfl
  have hpaid : Pays 0 pay.move (share 0 9 1 40 + share 0 9 1 30) (share 0 9 1 40 + share 0 9 2 30) :=
    ⟨by decide,_,rfl,rfl⟩
  have hplays : Plays 0 70 ([issue,pay].map move) 0 (share 0 9 1 40 + share 0 9 2 30) :=
    .cons (capped_zero 70) hissued (.cons ((capped_share 0 9 1 40).add (capped_share 0 9 1 30)) hpaid
      (.nil ((capped_share 0 9 1 40).add (capped_share 0 9 2 30))))
  exact (redeliveries_mirror .fixed .checked order [issue,pay,issue] (by decide) 70 (by decide) 0 _
    hplays [issue,pay,issue] [] rfl).1

end Recon

namespace Poller

theorem restored_final (W : World) (confirmations window : ℕ) (h : confirmations < window)
    (startBlock : ℕ) (source : FailingNode) {xs : List Process} {tip : Node}
    (hnodes : ∀ x ∈ xs, ∀ s ∈ Process.nodes x, W.Serves s)
    (hhistory : (xs.flatMap Process.nodes ++ [tip]).Pairwise (Node.Succeeds confirmations))
    (hfloor : ∀ l ∈ (lives confirmations window h startBlock source none xs).dropLast,
      l.KeepsFloor startBlock) :
    let persisted := leaves confirmations window h startBlock source none xs
    (∀ n, startBlock ≤ n → n < effectiveStart startBlock persisted → n+confirmations ≤ tip.head) ∧
    (tip.chain.upTo startBlock (effectiveStart startBlock persisted)).flatMap W.events <+:
      finalTransfers W confirmations startBlock tip ∧
    ∃ unread, Unread (lives confirmations window h startBlock source none xs) unread ∧
      confirmedOf (restored (lives confirmations window h startBlock source none xs) unread) =
        (tip.chain.upTo startBlock (effectiveStart startBlock persisted)).flatMap W.events := by
  intro persisted
  obtain ⟨-,-,hlast⟩ := List.pairwise_append.mp hhistory
  obtain ⟨unread,hunread,hleft,hcertain⟩ := lives_final (c:=tip.chain) h source
    (fun x hx s hs => ⟨hnodes x hx s hs,
      (hlast s (List.mem_flatMap.mpr ⟨x,hx,hs⟩) tip (by simp)).2⟩) hhistory hfloor
  have hdeep : ∀ n, startBlock ≤ n → n < effectiveStart startBlock persisted →
      n+confirmations ≤ tip.head := by
    intro n hn hlt
    cases hstored : persisted with
    | none =>
      rw [hstored] at hlt
      exact absurd hlt (by simp [effectiveStart,hn])
    | some w =>
      have hahead := hleft.ahead w hstored tip (by simp)
      rw [hstored] at hlt
      change n < w+1 at hlt
      omega
  refine ⟨hdeep,?_,unread,hunread,hcertain.confirmed⟩
  by_cases hnone : effectiveStart startBlock persisted ≤ startBlock
  · rw [Chain.upTo_nil hnone]
    exact List.nil_prefix
  · have hbound := hdeep (effectiveStart startBlock persisted-1) (by omega) (by omega)
    have hjoin := @Chain.upTo_append tip.chain startBlock (effectiveStart startBlock persisted)
      (tip.head+1-confirmations) (by omega)
    rw [finalTransfers,← hjoin,List.flatMap_append]
    exact List.prefix_append _ _

/-- Whatever ends the processes, crashes and dropped receivers included, the journal of the ledger
behind them holds entries of the final transfers only, in order and none of them twice. -/
theorem journal_behind (hex : LowerHex) (build : Build) (order : HashOrder (Σ _ : Asset, I128))
    (W : World) (confirmations window : ℕ) (h : confirmations < window)
    (startBlock : ℕ) (source : FailingNode) (xs : List Process) (tip : Node)
    (hnodes : ∀ x ∈ xs, ∀ s ∈ Process.nodes x, W.Serves s)
    (hhistory : (xs.flatMap Process.nodes ++ [tip]).Pairwise (Node.Succeeds confirmations))
    (hfloor : ∀ l ∈ (lives confirmations window h startBlock source none xs).dropLast,
      l.KeepsFloor startBlock) :
    let sent := confirmedOf ((lives confirmations window h startBlock source none xs).flatMap Life.sent)
    (Recon.delivered hex build order sent).journal.Sublist
      (((finalTransfers W confirmations startBlock tip).filter fun e => decide e.Fits).map
        (Recon.mirror hex)) := by
  intro sent
  obtain ⟨-,hfinal,unread,hunread,hconfirmed⟩ :=
    restored_final W confirmations window h startBlock source hnodes hhistory hfloor
  have hsent : sent.Sublist (finalTransfers W confirmations startBlock tip) := by
    have hsub : sent.Sublist (confirmedOf
        (restored (lives confirmations window h startBlock source none xs) unread)) :=
      (sent_sublist_restored hunread.length_eq).filterMap IndexerMessage.event?
    rw [hconfirmed] at hsub
    exact hsub.trans hfinal.sublist
  rw [Recon.delivered,Recon.journal_deliver]
  exact ((Firsts.firsts_sublist _).trans (hsent.filter _)).map _

/-- The first of the processes loses the transfer of block 1, which its consumer did not take. -/
theorem journal_behind_replaced :
    let order : HashOrder (Σ _ : Asset, I128) := ⟨id,fun _ => .refl _⟩
    let sent := confirmedOf ((lives 3 5 (by decide) 0 ⟨World.forked.node World.forkedLinear,0⟩ none
      replacements).flatMap Life.sent)
    (Recon.delivered .fixed .checked order sent).journal.Sublist
      (((finalTransfers World.forked 3 0 (World.forked.node World.forkedBranch)).filter fun e =>
        decide e.Fits).map (Recon.mirror .fixed)) ∧
    (Recon.delivered .fixed .checked order sent).journal.length = 2 := by
  intro order sent
  exact ⟨journal_behind .fixed .checked order World.forked 3 5 (by decide) 0
    ⟨World.forked.node World.forkedLinear,0⟩ replacements (World.forked.node World.forkedBranch)
    replacements_serve (by decide +kernel) (by decide +kernel),by decide +kernel⟩

/-- From a cold checkpoint, over chains that never lose a block as deep as the confirmation depth,
and whatever ends the processes as long as their consumer stays: the ledger takes all that
they have sent, and mirrors the token contracts as of the persisted height. -/
theorem ledger_mirrors (hex : LowerHex) (build : Build) (order : HashOrder (Σ _ : Asset, I128))
    (W : World) (confirmations window : ℕ) (h : confirmations < window)
    (startBlock : ℕ) (source : FailingNode) (xs : List Process) (tip : Node)
    (hnodes : ∀ x ∈ xs, ∀ s ∈ Process.nodes x, W.Serves s)
    (hhistory : (xs.flatMap Process.nodes ++ [tip]).Pairwise (Node.Succeeds confirmations))
    (hfloor : ∀ l ∈ (lives confirmations window h startBlock source none xs).dropLast,
      l.KeepsFloor startBlock)
    (hstays : ∀ l ∈ lives confirmations window h startBlock source none xs, l.ending ≠ .inl none)
    (hlogs : ((finalTransfers W confirmations startBlock tip).map log).Nodup)
    (cap : ℕ) (hcap : cap < 2^127) (holds : ℕ → Holdings Address Address)
    (hstart : (holds startBlock).Capped cap)
    (hplays : ∀ n, startBlock ≤ n → n+confirmations ≤ tip.head →
      Plays 0 cap ((W.events (tip.chain.block n)).map move) (holds n) (holds (n+1))) :
    let sent := confirmedOf ((lives confirmations window h startBlock source none xs).flatMap Life.sent)
    let persisted := leaves confirmations window h startBlock source none xs
    (∀ before e after, sent = before ++ e::after →
      (Recon.deliver hex build order (Recon.delivered hex build order before) e).2 =
        some (.ok ())) ∧
    Recon.Mirrors hex (Recon.delivered hex build order sent) (holds startBlock)
      (holds (max startBlock (effectiveStart startBlock persisted))) := by
  intro sent persisted
  obtain ⟨hdeep,hfinal,unread,hunread,hconfirmed⟩ :=
    restored_final W confirmations window h startBlock source hnodes hhistory hfloor
  rw [restored_of_stays hunread hstays] at hconfirmed
  have hsent : sent = (tip.chain.upTo startBlock (effectiveStart startBlock persisted)).flatMap
      W.events := hconfirmed
  rw [← hsent] at hfinal
  have hdistinct : firsts log sent = sent :=
    Firsts.firsts_of_nodup (hlogs.sublist (hfinal.sublist.map log))
  have hplayed : Plays 0 cap (sent.map move) (holds startBlock)
      (holds (max startBlock (effectiveStart startBlock persisted))) := by
    have hruns := @plays_flatMap _ _ 0 cap _ _
      (fun n => (W.events (tip.chain.block n)).map move) holds startBlock
      (effectiveStart startBlock persisted-startBlock) hstart
      fun n hn hlt => hplays n hn
        (hdeep n hn (show n < effectiveStart startBlock persisted by omega))
    rw [show startBlock+(effectiveStart startBlock persisted-startBlock) =
      max startBlock (effectiveStart startBlock persisted) by omega] at hruns
    rw [hsent,Chain.upTo,List.flatMap_map,List.map_flatMap]
    exact hruns
  have hagree : Agree sent := fun a ha b hb hlog =>
    congrArg transfer (List.inj_on_of_nodup_map (hlogs.sublist (hfinal.sublist.map log)) ha hb hlog)
  refine ⟨?_,Recon.mirrors_of_plays hcap ?_⟩
  · intro before e after hsplit
    exact Recon.deliver_accepts (hagree.mono (by simp [hsplit]))
      (Recon.fits_of_plays hcap hplayed e (by simp [hsplit]))
  · rwa [Recon.distinctLogs_of_plays hagree hcap (by rwa [hdistinct]),hdistinct]

/-- Of token 9, account 1 is issued 5 in every block, over a chain that is replaced from block 2
on. -/
def issuing : World where
  blocks := World.forked.blocks
  events b := [⟨9,0,1,5,b.number,b.hash,0⟩]
  hash_inj := World.forked.hash_inj
  events_number := by simp

def issues : List Process :=
  [⟨[⟨issuing.node World.forkedLinear,99⟩],9,⟨none⟩⟩,⟨[⟨issuing.node World.forkedBranch,2⟩],9,⟨none⟩⟩,
    ⟨[⟨issuing.node World.forkedBranch,99⟩],9,⟨none⟩⟩]

theorem issues_serve : ∀ x ∈ issues, ∀ s ∈ Process.nodes x, issuing.Serves s := by
  intro x hx s hs
  simp only [issues,List.mem_cons,List.not_mem_nil,or_false] at hx
  rcases hx with rfl | rfl | rfl <;> obtain rfl := List.mem_singleton.mp hs
  · exact ⟨rfl,World.forked_linear.2⟩
  · exact ⟨rfl,World.forked_branch.2⟩
  · exact ⟨rfl,World.forked_branch.2⟩

theorem ledger_mirrors_issuing :
    let order : HashOrder (Σ _ : Asset, I128) := ⟨id,fun _ => .refl _⟩
    Recon.Mirrors .fixed (Recon.delivered .fixed .checked order (confirmedOf ((lives 3 5 (by decide) 0
      ⟨issuing.node World.forkedLinear,0⟩ none issues).flatMap Life.sent))) 0 (share 0 9 1 15) := by
  intro order
  have hleaves : effectiveStart 0 (leaves 3 5 (by decide) 0 ⟨issuing.node World.forkedLinear,0⟩ none
      issues) = 3 := by decide +kernel
  have hempty : (share 0 9 1 (5*0) : Holdings Address Address) = 0 := by
    simp [share]
  have hmirrors := (ledger_mirrors .fixed .checked order issuing 3 5 (by decide) 0
    ⟨issuing.node World.forkedLinear,0⟩ issues (issuing.node World.forkedBranch) issues_serve
    (by decide +kernel) (by decide +kernel) (by decide +kernel) (by decide +kernel) 100 (by decide) (fun n => share 0 9 1 (5*n))
    (by rw [hempty]; exact capped_zero 100) (by
      intro n _ hn
      have hn' : n+3 ≤ 5 := hn
      refine .cons (fun k => (capped_share 0 9 1 (5*n) k).trans (by omega))
        ⟨by simp [move],share 0 9 1 (5*n),?_,?_⟩
        (.nil fun k => (capped_share 0 9 1 (5*(n+1)) k).trans (by omega))
      · simp [move,share_nobody]
      · rw [Nat.mul_add,share_add]
        rfl)).2
  rwa [hleaves,hempty] at hmirrors

end Poller
end Fintrails
