import Fintrails.Finality

/-! A poller that persists nothing, started again and again.  Every start indexes from the
configured block on and hands down once more what the starts before it did, and the ledger
takes each log once: it ends as if only the start that got furthest had been there. -/
namespace Fintrails
namespace Poller

/-- How a process without a checkpoint ends, and what it has sent. -/
def started (confirmations window : ℕ) (h : confirmations < window) (startBlock : ℕ)
    (source : FailingNode) (x : List FailingNode × Receiver) :
    (Option Receiver ⊕ PollerError) × List IndexerMessage :=
  let r := ended ((run (x.1.map fun s _ => s) x.2).run
    (Poller.new source (Tracker.fresh confirmations window h) startBlock))
  (r.1,sentOf r.2.effects)

theorem stores_none : Stores fun (_ : NoCheckpoint) _ => True where
  saved _ _ _ _ _ _ := trivial
  failed _ _ _ _ _ _ _ := trivial

variable {W : World} {c : Chain} {confirmations window : ℕ}

theorem started_session (h : confirmations < window) (startBlock : ℕ) (source : FailingNode)
    (x : List FailingNode × Receiver) :
    ∃ done unread, done <+: x.1.map FailingNode.node ∧
      (started confirmations window h startBlock source x).2 ++ unread =
        (session confirmations window h startBlock source.node ⟨none⟩ done).2 := by
  obtain ⟨done,unread,hdone,-,hmsgs,-⟩ := Shadows.run stores_none
    (p:=Poller.new source (Tracker.fresh confirmations window h) startBlock)
    (m:=⟨source.node,⟨none⟩,Tracker.fresh confirmations window h,startBlock,none,[],[]⟩)
    ⟨rfl,rfl,rfl,trivial⟩ (Tracker.fresh_sound _ _ _) x.1 x.2
  refine ⟨done,unread,hdone,?_⟩
  rw [session_eq h startBlock source.node (by simp) done rfl]
  exact hmsgs

/-- The transfers of the blocks that are `confirmations` deep. -/
def finalTransfers (W : World) (confirmations startBlock : ℕ) (tip : Node) : List ChainEvent :=
  (tip.chain.upTo startBlock (tip.head+1-confirmations)).flatMap W.events

/-- Whatever ends it, a process confirms the final transfers from the first on, up to some. -/
theorem started_prefix (h : confirmations < window) (startBlock : ℕ) (source : FailingNode)
    {x : List FailingNode × Receiver} {tip : Node}
    (hnodes : ∀ s ∈ x.1, W.Serves s.node)
    (hhistory : (x.1.map FailingNode.node ++ [tip]).Pairwise (Node.Succeeds confirmations)) :
    confirmedOf (started confirmations window h startBlock source x).2 <+:
      finalTransfers W confirmations startBlock tip := by
  obtain ⟨hpairwise,-,hlast⟩ := List.pairwise_append.mp hhistory
  obtain ⟨done,unread,hdone,hmsgs⟩ := started_session h startBlock source x
  have hsub : ∀ s ∈ done, W.Serves s ∧ s.Succeeds confirmations tip := by
    intro s hs
    obtain ⟨r,hr,rfl⟩ := List.mem_map.mp (hdone.subset hs)
    exact ⟨hnodes r hr,hlast _ (hdone.subset hs) tip (by simp)⟩
  obtain ⟨frontier,hran⟩ := @session_ranTo W tip.chain _ _ h startBlock source.node ⟨none⟩ (by simp)
    _ (fun s hs => ⟨(hsub s hs).1,(hsub s hs).2.2⟩)
    (hpairwise.sublist hdone.sublist)
  have hle : frontier ≤ tip.head+1-confirmations := by
    by_cases hzero : frontier = 0
    · omega
    · obtain ⟨last,hmem,-,hfrontier⟩ := hran.reached hzero
      have hgrown := (hsub last hmem).2.1
      omega
  have hwhole : confirmedOf (session confirmations window h startBlock source.node ⟨none⟩ done).2 <+:
      finalTransfers W confirmations startBlock tip := by
    have hconfirmed : confirmedOf (session confirmations window h startBlock source.node ⟨none⟩
        done).2 = (tip.chain.upTo startBlock frontier).flatMap W.events := hran.certain.confirmed
    rw [hconfirmed,finalTransfers,← tip.chain.upTo_append (hle.trans (le_max_right _ _)),
      List.flatMap_append]
    exact List.prefix_append _ _
  have hsent := List.prefix_append (started confirmations window h startBlock source x).2 unread
  rw [hmsgs] at hsent
  exact (hsent.filterMap IndexerMessage.event?).trans hwhole

end Poller

namespace Recon

open ChainEvent InMemoryStore

variable {hex : LowerHex} {build : Build} {order : HashOrder (Σ _ : Asset, I128)}

theorem delivered_eq (events : List ChainEvent) : delivered hex build order events =
    Machine.final append new ((distinctLogs events).map (entry hex)) := by
  rw [delivered,final_deliver,← final_firsts,firsts_entries]

variable (hex build order) in
theorem delivered_longest {events : List ChainEvent} {ls : List (List ChainEvent)}
    (h : ∀ l ∈ ls, l <+: events) (hne : ls ≠ []) : ∃ longest ∈ ls, (∀ l ∈ ls, l <+: longest) ∧
      delivered hex build order ls.flatten = delivered hex build order longest := by
  obtain ⟨longest,hmem,hall,hfirsts⟩ :=
    Firsts.exists_longest log (fun e : ChainEvent => decide e.Fits) h hne
  refine ⟨longest,hmem,hall,?_⟩
  rw [delivered_eq,delivered_eq]
  exact congrArg (fun l => Machine.final append new (List.map (entry hex) l)) hfirsts

/-- A poller that persists nothing is started any number of times, over chains that never lose
a block as deep as the confirmation depth, and each start is ended in any way.  The ledger
to which all of them deliver is that of the start which got furthest, and takes every
delivery that fits, repeated or not. -/
theorem redelivered_once (hex : LowerHex) (build : Build) (order : HashOrder (Σ _ : Asset, I128))
    (W : World) (confirmations window : ℕ) (h : confirmations < window)
    (startBlock : ℕ) (source : FailingNode) (xs : List (List FailingNode × Receiver)) (tip : Node)
    (hne : xs ≠ []) (hnodes : ∀ x ∈ xs, ∀ s ∈ x.1, W.Serves s.node)
    (hhistory : ∀ x ∈ xs,
      (x.1.map FailingNode.node ++ [tip]).Pairwise (Node.Succeeds confirmations))
    (hagree : Agree (Poller.finalTransfers W confirmations startBlock tip)) :
    let sent := fun x => confirmedOf (Poller.started confirmations window h startBlock source x).2
    (∃ furthest ∈ xs, (∀ x ∈ xs, sent x <+: sent furthest) ∧
      sent furthest <+: Poller.finalTransfers W confirmations startBlock tip ∧
      delivered hex build order (xs.flatMap sent) = delivered hex build order (sent furthest)) ∧
    ∀ before e after, xs.flatMap sent = before ++ e::after → e.Fits →
      (deliver hex build order (delivered hex build order before) e).2 = some (.ok ()) := by
  intro sent
  have hbegins : ∀ x ∈ xs, sent x <+: Poller.finalTransfers W confirmations startBlock tip :=
    fun x hx => Poller.started_prefix h startBlock source (hnodes x hx) (hhistory x hx)
  constructor
  · have hall : ∀ l ∈ xs.map sent, l <+: Poller.finalTransfers W confirmations startBlock tip := by
      intro l hl
      obtain ⟨x,hx,rfl⟩ := List.mem_map.mp hl
      exact hbegins x hx
    obtain ⟨longest,hmem,hlongest,hstore⟩ := delivered_longest hex build order hall (by simpa using hne)
    rw [← List.flatMap_def] at hstore
    obtain ⟨furthest,hx,rfl⟩ := List.mem_map.mp hmem
    exact ⟨furthest,hx,fun x hx => hlongest _ (List.mem_map_of_mem hx),hbegins furthest hx,hstore⟩
  · intro before e after hsplit hfits
    have hsub : ∀ d ∈ before ++ [e], d ∈ Poller.finalTransfers W confirmations startBlock tip := by
      intro d hd
      have hmem : d ∈ xs.flatMap sent := by
        rw [hsplit,← List.singleton_append,← List.append_assoc]
        exact List.mem_append_left _ hd
      obtain ⟨x,hx,hd⟩ := List.mem_flatMap.mp hmem
      exact (hbegins x hx).subset hd
    exact deliver_accepts (hagree.mono hsub) hfits

/-- The first start is dropped by its consumer after one transfer, the second fails at once, the
third gets through, and the fourth hands down again what it finds on a shorter chain. -/
theorem redelivered_once_linear :
    let order : HashOrder (Σ _ : Asset, I128) := ⟨id,fun _ => .refl _⟩
    let xs : List (List FailingNode × Receiver) :=
      [([⟨World.linearAt 4 (by decide),99⟩],⟨some 1⟩),([⟨World.linearAt 5 (by decide),0⟩],⟨none⟩),
        ([⟨World.linearAt 5 (by decide),99⟩],⟨none⟩),([⟨World.linearAt 3 (by decide),99⟩],⟨none⟩)]
    let sent := fun x => confirmedOf (Poller.started 2 4 (by decide) 1
      ⟨World.linearAt 0 (by decide),0⟩ x).2
    delivered .fixed .checked order (xs.flatMap sent) = delivered .fixed .checked order
      (Poller.finalTransfers World.linear 2 1 (World.linearAt 5 (by decide))) := by
  intro order xs sent
  have hserves : ∀ x ∈ xs, ∀ s ∈ x.1, World.linear.Serves s.node := by
    intro x hx s hs
    have hlinear := World.linear_serves (le_refl 5) (by decide)
    simp only [xs,List.mem_cons,List.not_mem_nil,or_false] at hx
    rcases hx with rfl | rfl | rfl | rfl <;> rw [List.mem_singleton.mp hs] <;> exact hlinear
  obtain ⟨⟨furthest,-,hall,hbegins,hstore⟩,-⟩ := redelivered_once .fixed .checked order
    World.linear 2 4 (by decide) 1 ⟨World.linearAt 0 (by decide),0⟩ xs
    (World.linearAt 5 (by decide)) (by simp [xs]) hserves (by decide +kernel) (by decide +kernel)
  have hwhole : sent ([⟨World.linearAt 5 (by decide),99⟩],⟨none⟩) =
      Poller.finalTransfers World.linear 2 1 (World.linearAt 5 (by decide)) := by decide +kernel
  have hthird : sent ([⟨World.linearAt 5 (by decide),99⟩],⟨none⟩) <+: sent furthest :=
    hall _ (by simp [xs])
  have hlength : (sent furthest).length ≤
      (sent ([⟨World.linearAt 5 (by decide),99⟩],⟨none⟩)).length := by
    rw [hwhole]
    exact hbegins.length_le
  have hsame := hthird.eq_of_length_le hlength
  exact hstore.trans (congrArg _ (hsame.symm.trans hwhole))

end Recon
end Fintrails
