/-
  SetPriority.lean
  ================
  What `setpriority` changes.

  The process that is found is the only one whose fields change, and the others keep their
  order on every list: the lists before and after a call are the same once that process is
  taken out.
-/
import Xv6Kernel.StateLists

namespace Xv6Kernel

open IntrusiveList Function Queues

/-! ### Pointers with the same lists -/

theorem chain_next_eq
    (hc : Chain next h l) (hc' : Chain next' h' l) : ∀ p ∈ l, next p = next' p := by
  induction l generalizing h h' with
  | nil => exact fun _ hp => absurd hp List.not_mem_nil
  | cons q l ih =>
    intro p hp
    rcases List.mem_cons.mp hp with rfl | hp
    · exact hc.2.head.trans hc'.2.head.symm
    · exact ih hc.2 hc'.2 p hp

/-- The lists and the fields determine the table, as every slot is on a list. -/
theorem Represents.eq (hr : Represents s a) (hr' : Represents s' a) (ok : a.ListsOk) : s = s' := by
  have hnext : s.next = s'.next := funext fun p =>
    chain_next_eq (hr.chain _) (hr'.chain _) p ((ok.mem p _).mpr rfl)
  have hheads : s.pLists = s'.pLists := funext fun l =>
    (hr.chain l).head.trans (hr'.chain l).head.symm
  have htable := hr.table.trans hr'.table.symm
  have hmiss := hr.removeMiss.trans hr'.removeMiss.symm
  have hinserts := hr.inserts.trans hr'.inserts.symm
  have hstamp := hr.stamp.trans hr'.stamp.symm
  cases s
  cases s'
  subst hnext hheads htable hmiss hinserts hstamp
  rfl

/-! ### The change -/

/-- The table `s'`, with the lists `L'`, after the priority of `p` has been set. -/
structure Reprioritised (s s' : PTable) (L L' : ListId → List Slot) (p : Slot) (priority : Int) :
    Prop where
  inv : StateListInv s' L'
  self : s'.proc p = { s.proc p with prio := priority, budget := (s'.proc p).budget }
  /-- A process that is moved is the last one on its new list, with a full budget. -/
  last : (s.proc p).state = .runnable → (s.proc p).prio ≠ priority →
    (s'.proc p).budget = BitVec.ofNat 32 BUDGET ∧
      ∃ i : Fin (MAX + 1), ((i : Nat) : Int) = priority ∧ (L' (.ready i)).getLast? = some p
  others : s'.toTable = { s.toTable with proc := update s.proc p (s'.proc p) }
  order : ∀ l, (L' l).erase p = (L l).erase p

theorem erase_shiftReady {a : Queues} {p : Slot} {src l : ListId} {f : Proc → Proc}
    (ok : a.ListsOk) (hp : p ∈ a.lists src) :
    ((a.shiftReady p src f).lists l).erase p = (a.lists l).erase p := by
  have hno := ok.not_mem_remove ((ok.mem p src).mp hp) l
  have hrest : ((a.remove src p).lists l) = (a.lists l).erase p := by
    by_cases hl : l = src
    · rw [hl, remove_lists, update_self]
    · have hnot : p ∉ a.lists l := fun hmem =>
        hl (((ok.mem p l).mp hmem).symm.trans ((ok.mem p src).mp hp))
      rw [remove_lists, update_of_ne hl, List.erase_of_not_mem hnot]
  rw [hrest] at hno
  unfold shiftReady enqueue
  rw [pushReady_lists]
  by_cases hl : l = .ready (readyIx (((a.remove src p).upd fun t => t.setProc p f).proc p).prio)
  · rw [← hl, update_self, upd_lists, hrest, List.erase_append_right _ hno,
      List.erase_cons_head, List.append_nil]
  · rw [update_of_ne hl, upd_lists, hrest, List.erase_of_not_mem hno]

theorem Reprioritised.of_setProc (hr : Represents s' b) (ok : b.ListsOk)
    (htable : b.toTable = s.toTable.setProc p (PTable.setPrioFields priority))
    (hlast : (s.proc p).state = .runnable →
      ∃ i : Fin (MAX + 1), ((i : Nat) : Int) = priority ∧ (b.lists (.ready i)).getLast? = some p)
    (horder : ∀ l, (b.lists l).erase p = (L l).erase p) :
    Reprioritised s s' L b.lists p priority := by
  have hsame : s'.toTable = s.toTable.setProc p (PTable.setPrioFields priority) :=
    hr.table.trans htable
  have hself : s'.proc p = PTable.setPrioFields priority (s.proc p) := by
    rw [hsame, Table.setProc_proc, update_self]
  refine ⟨hr.stateListInv ok, ?_, fun hst _ => ⟨?_, hlast hst⟩, ?_, horder⟩
  · rw [hself]
    rfl
  · rw [hself]
    rfl
  · rw [hself, hsame]
    rfl

/-- `setpriority` returns 0 exactly for a priority in range and the pid of a process that is
    runnable, running or asleep; then it changes this process only.  Otherwise it changes
    nothing. -/
theorem setpriority_changes_one {s : PTable} {L : ListId → List Slot} (h : StateListInv s L)
    (hpids : ∀ p q, (s.proc p).Active → (s.proc q).Active → (s.proc p).pid = (s.proc q).pid → p = q)
    (pid : Uint) (priority : Int) :
    ∃ rc s', s.setpriority pid priority = .ok (rc, s') ∧ (rc = 0 ∨ rc = -1 ∧ s' = s) ∧
      (rc = 0 ↔ (0 ≤ priority ∧ priority ≤ MAX) ∧ ∃ p, (s.proc p).Active ∧ (s.proc p).pid = pid) ∧
      (rc = 0 → ∀ p, (s.proc p).Active → (s.proc p).pid = pid →
        ∃ L', Reprioritised s s' L L' p priority) := by
  obtain ⟨hr, ok⟩ := h.represents
  obtain ⟨s', hrun, hr'⟩ := hr.setpriority ok pid priority
  have ok' := ok.setpriority pid priority
  have hdid := ok.reprioritises pid priority
  refine ⟨_, s', hrun, ?_⟩
  generalize setpriority pid priority _ = r at hr' ok' hdid
  obtain ⟨rc, b⟩ := r
  cases hdid with
  | refused hbad =>
    refine ⟨Or.inr ⟨rfl, hr'.eq hr ok⟩, ⟨nofun, ?_⟩, nofun⟩
    rintro ⟨⟨h0, h1⟩, -⟩
    omega
  | missed h0 h1 hno =>
    refine ⟨Or.inr ⟨rfl, hr'.eq hr ok⟩, ⟨nofun, ?_⟩, nofun⟩
    rintro ⟨-, p, hp, hpid⟩
    exact absurd hpid (hno p hp)
  | @stays p h0 h1 hpid hst hprio =>
    have hactive : (s.proc p).Active := Or.inl hst
    refine ⟨Or.inl rfl, ⟨fun _ => ⟨⟨h0, h1⟩, p, hactive, hpid⟩, fun _ => rfl⟩,
      fun _ q hq hqid => ?_⟩
    obtain rfl := hpids q p hq hactive (hqid.trans hpid.symm)
    obtain rfl := hr'.eq hr ok
    refine ⟨L, h, ?_, fun _ hne => absurd hprio hne, ?_, fun _ => rfl⟩
    · rw [← hprio]
    · rw [update_eq_self]
  | @moves p i h0 h1 hpid hp hi =>
    have hactive : (s.proc p).Active := Or.inl (ok.mem_ready.mp hp).1
    refine ⟨Or.inl rfl, ⟨fun _ => ⟨⟨h0, h1⟩, p, hactive, hpid⟩, fun _ => rfl⟩,
      fun _ q hq hqid => ?_⟩
    obtain rfl := hpids q p hq hactive (hqid.trans hpid.symm)
    refine ⟨_, .of_setProc hr' ok' rfl (fun _ => ?_) fun l => erase_shiftReady ok hp⟩
    refine ⟨readyIx priority, readyIx_val h0 h1, ?_⟩
    have hix : readyIx ((upd (remove ⟨s.toTable, L, s.inserts, s.stamp⟩
        (.ready i) q) fun t => t.setProc q (PTable.setPrioFields priority)).proc q).prio =
        readyIx priority := by
      simp [PTable.setPrioFields]
    change ((enqueue _ q).lists _).getLast? = some q
    unfold enqueue
    rw [hix, pushReady_lists, update_self, List.getLast?_concat]
  | @assigned p h0 h1 hpid hst =>
    have hactive : (s.proc p).Active := Or.inr hst
    refine ⟨Or.inl rfl, ⟨fun _ => ⟨⟨h0, h1⟩, p, hactive, hpid⟩, fun _ => rfl⟩,
      fun _ q hq hqid => ?_⟩
    obtain rfl := hpids q p hq hactive (hqid.trans hpid.symm)
    refine ⟨_, .of_setProc hr' ok' rfl (fun hrun => ?_) fun l => rfl⟩
    rcases hst with hst | hst <;> exact absurd (hst.symm.trans hrun) (by decide)

theorem setpriority_changes_one_init :
    ∃ rc s', bootedTable.setpriority 1 3 = .ok (rc, s') ∧ rc = 0 := by
  have hone : ∀ p, (bootedTable.proc p).Active → p = 63 := by decide +kernel
  obtain ⟨L, hL⟩ := reachable_stateListInv (.init bootedTable_init)
  obtain ⟨rc, s', hrun, -, hiff, -⟩ := setpriority_changes_one hL
    (fun p q hp hq _ => (hone p hp).trans (hone q hq).symm) 1 3
  exact ⟨rc, s', hrun, hiff.mpr ⟨by decide, 63, by decide +kernel⟩⟩

end Xv6Kernel
