/-
  Promotion.lean
  ==============
  What `prioadjust` does to the ready lists.

  The loop over `ready[i]` moves the process it stands on to the end of `ready[i-1]` and
  then follows that process's `next` field, which is null by now.  So of each list only
  the first process is promoted, where `wakeup1` in the same file saves the `next` field
  before it moves a process.  `prioadjust_readyList` gives the lists after a call.
  The call does what its comment promises, promote every process, exactly when no list
  but `ready[0]` holds two processes.
-/
import Xv6Kernel.StateLists

namespace Xv6Kernel

open IntrusiveList

namespace Queues

variable {a b : Queues} {p q : Slot}

/-- The list `ready[k]`, with no process on it for `k` out of range. -/
def readyList (a : Queues) (k : Nat) : List Slot :=
  if h : k < MAX + 1 then a.lists (.ready ⟨k, h⟩) else []

theorem readyList_fin (i : Fin (MAX + 1)) : a.readyList i = a.lists (.ready i) := by
  rw [readyList, dif_pos i.isLt]

/-! ### One list -/

theorem promote_readyList (ok : a.ListsOk) (hk : k + 1 < MAX + 1) (j : Nat) :
    (a.promote ⟨k + 1, hk⟩).readyList j = if j = k + 1 then (a.readyList (k + 1)).tail
      else if j = k then a.readyList k ++ (a.readyList (k + 1)).head?.toList
      else a.readyList j := by
  have hk' : k < MAX + 1 := by omega
  have hhere : a.readyList (k + 1) = a.lists (.ready ⟨k + 1, hk⟩) := by rw [readyList, dif_pos hk]
  have hthere : a.readyList k = a.lists (.ready ⟨k, hk'⟩) := by rw [readyList, dif_pos hk']
  rw [hhere, hthere]
  unfold promote
  rcases hready : a.lists (.ready ⟨k + 1, hk⟩) with _ | ⟨p, rest⟩
  · by_cases h1 : j = k + 1
    · subst h1
      simp [hhere, hready]
    · by_cases h2 : j = k
      · subst h2
        simp [hthere]
      · simp [h1, h2]
  · have hp : p ∈ a.lists (.ready ⟨k + 1, hk⟩) := by rw [hready]; simp
    have hprio : (a.proc p).prio = ((k + 1 : Nat) : Int) := (ok.mem_ready.mp hp).2
    have hix : readyIx ((a.proc p).prio - 1) = ⟨k, hk'⟩ := by
      have hcast : ((k + 1 : Nat) : Int) - 1 = ((⟨k, hk'⟩ : Fin (MAX + 1)) : Nat) := by
        simp
      rw [hprio, hcast, readyIx_natCast]
    by_cases hj : j < MAX + 1
    · have hne : ¬ ListId.ready ⟨k, hk'⟩ = ListId.ready ⟨k + 1, hk⟩ := by simp
      simp only [readyList, dif_pos hj, shiftReady, enqueue, upd_lists, remove_lists,
        pushReady_lists, upd_toTable, remove_toTable, Table.setProc_proc, Function.update_self,
        hix, Function.update_apply, ListId.ready.injEq, Fin.mk.injEq]
      by_cases h1 : j = k + 1
      · subst h1
        simp [hready]
      · by_cases h2 : j = k
        · subst h2
          simp
        · simp [h1, h2]
    · have h1 : j ≠ k + 1 := by omega
      have h2 : j ≠ k := by omega
      simp [readyList, hj, h1, h2]

/-! ### All lists -/

/-- The processes that stay on `ready[j]`. -/
def keptList (a : Queues) (j : Nat) : List Slot :=
  if j = 0 then a.readyList 0 else (a.readyList j).tail

/-- The lists after the loops over `ready[1]` to `ready[k]`. -/
def PromotedTo (a b : Queues) (k : Nat) : Prop :=
  ∀ j, b.readyList j =
    if j < k then a.keptList j ++ (a.readyList (j + 1)).head?.toList
    else if j = k then a.keptList j
    else a.readyList j

theorem PromotedTo.zero (hlists : b.lists = a.lists) : PromotedTo a b 0 := by
  intro j
  have hsame : b.readyList j = a.readyList j := by simp [readyList, hlists]
  by_cases hj : j = 0
  · subst hj
    simp [hsame, keptList]
  · simp [hsame, hj]

theorem PromotedTo.step (h : PromotedTo a b k) (ok : b.ListsOk) (hk : k + 1 < MAX + 1) :
    PromotedTo a (b.promote ⟨k + 1, hk⟩) (k + 1) := by
  intro j
  have hnext : b.readyList (k + 1) = a.readyList (k + 1) := by
    rw [h (k + 1), if_neg (by omega), if_neg (by omega)]
  rw [promote_readyList ok hk, hnext]
  by_cases h1 : j = k + 1
  · subst h1
    simp [keptList]
  · rw [if_neg h1]
    by_cases h2 : j = k
    · subst h2
      rw [if_pos rfl, if_pos (by omega), h j, if_neg (by omega), if_pos rfl]
    · rw [if_neg h2, h j, if_neg h2]
      by_cases h3 : j < k
      · rw [if_pos h3, if_pos (by omega)]
      · rw [if_neg h3, if_neg (by omega), if_neg h1]

theorem decrementPrio_lists : (a.decrementPrio l).lists = a.lists := by
  apply List.foldlRecOn (motive := fun b : Queues => b.lists = a.lists) _ _ rfl
  intro b hb q _
  rw [← hb]
  unfold decrementOne
  split_ifs <;> rfl

/-- The ready lists after `prioadjust`: each list has lost its first process to the list
    before it. -/
theorem prioadjust_readyList (ok : a.ListsOk) (j : Nat) :
    a.prioadjust.readyList j = a.keptList j ++ (a.readyList (j + 1)).head?.toList := by
  have ok₁ := (ok.decrementPrio (l := .sleep) (by simp)).decrementPrio (l := .running) (by simp)
  have hfold : (List.finRange (MAX + 1)).tail = [1, 2, 3, 4, 5, 6] := by decide
  have hall : PromotedTo a ((List.finRange (MAX + 1)).tail.foldl promote
      ((a.decrementPrio .sleep).decrementPrio .running)) MAX := by
    have h₀ : PromotedTo a ((a.decrementPrio .sleep).decrementPrio .running) 0 := by
      apply PromotedTo.zero
      rw [decrementPrio_lists, decrementPrio_lists]
    rw [hfold]
    simp only [List.foldl_cons, List.foldl_nil]
    have h₁ := h₀.step ok₁ (k := 0) (by decide)
    have o₁ := ok₁.promote (i := 1) (by decide)
    have h₂ := h₁.step o₁ (k := 1) (by decide)
    have o₂ := o₁.promote (i := 2) (by decide)
    have h₃ := h₂.step o₂ (k := 2) (by decide)
    have o₃ := o₂.promote (i := 3) (by decide)
    have h₄ := h₃.step o₃ (k := 3) (by decide)
    have o₄ := o₃.promote (i := 4) (by decide)
    have h₅ := h₄.step o₄ (k := 4) (by decide)
    have o₅ := o₄.promote (i := 5) (by decide)
    exact h₅.step o₅ (k := 5) (by decide)
  have hlast : a.prioadjust.readyList j = ((List.finRange (MAX + 1)).tail.foldl promote
      ((a.decrementPrio .sleep).decrementPrio .running)).readyList j := by
    simp only [prioadjust, readyList, upd_lists]
  rw [hlast, hall j]
  have hout : ∀ k, MAX < k → a.readyList k = [] := by
    intro k hk
    rw [readyList, dif_neg (by omega)]
  by_cases h1 : j < MAX
  · rw [if_pos h1]
  · rw [if_neg h1]
    by_cases h2 : j = MAX
    · rw [if_pos h2, hout (j + 1) (by omega)]
      simp
    · have hkept : a.keptList j = [] := by
        rw [keptList, if_neg (by omega), hout j (by omega)]
        rfl
      rw [if_neg h2, hkept, hout (j + 1) (by omega), hout j (by omega)]
      simp

/-! ### Priorities -/

theorem decrementPrio_prio (hnd : (a.lists l).Nodup) : ((a.decrementPrio l).proc q).prio =
      if q ∈ a.lists l ∧ (a.proc q).prio ≠ 0 then (a.proc q).prio - 1 else (a.proc q).prio := by
  have hgo : ∀ (rest : List Slot) (b : Queues), rest.Nodup →
      ((rest.foldl decrementOne b).proc q).prio =
        if q ∈ rest ∧ (b.proc q).prio ≠ 0 then (b.proc q).prio - 1 else (b.proc q).prio := by
    intro rest
    induction rest with
    | nil => simp
    | cons p rest ih =>
      intro b hnd
      obtain ⟨hp, hnd'⟩ := List.nodup_cons.mp hnd
      rw [List.foldl_cons, ih _ hnd']
      unfold decrementOne
      by_cases hqp : q = p
      · subst hqp
        by_cases h0 : (b.proc q).prio ≠ 0
        · simp [h0, hp]
        · simp [h0]
      · by_cases h0 : (b.proc p).prio ≠ 0
        · simp [h0, hqp]
        · simp [h0, hqp]
  exact hgo _ a hnd

theorem promotions_proc (ok : a.ListsOk) (hq : (a.proc q).state ≠ .runnable) :
    ((List.finRange (MAX + 1)).tail.foldl promote a).proc q = a.proc q := by
  have hgo : ((List.finRange (MAX + 1)).tail.foldl promote a).ListsOk ∧
      ((List.finRange (MAX + 1)).tail.foldl promote a).proc q = a.proc q := by
    apply List.foldlRecOn (motive := fun b : Queues => b.ListsOk ∧ b.proc q = a.proc q)
    · exact ⟨ok, rfl⟩
    · rintro b ⟨okb, hb⟩ i hi
      refine ⟨okb.promote (by revert i; decide), ?_⟩
      unfold promote
      rcases hready : b.lists (.ready i) with _ | ⟨p, rest⟩
      · exact hb
      · have hp : p ∈ b.lists (.ready i) := by rw [hready]; simp
        have hqp : q ≠ p := by
          rintro rfl
          exact hq (hb ▸ (okb.mem_ready.mp hp).1)
        simpa [shiftReady, enqueue, hqp] using hb
  exact hgo.2

/-- A process that is RUNNING or SLEEPING has its priority decreased, down to 0. -/
theorem prioadjust_prio_awake (ok : a.ListsOk)
    (hq : (a.proc q).state = .running ∨ (a.proc q).state = .sleeping) :
    (a.prioadjust.proc q).prio =
      if (a.proc q).prio ≠ 0 then (a.proc q).prio - 1 else (a.proc q).prio := by
  have ok₁ := ok.decrementPrio (l := .sleep) (by simp)
  have ok₂ := ok₁.decrementPrio (l := .running) (by simp)
  have hst₁ : ((a.decrementPrio .sleep).proc q).state = (a.proc q).state :=
    Table.Reprio.state (decrementPrio_reprio fun r hr =>
      Or.inr (Proc.list_eq_sleep.mp ((ok.mem r _).mp hr))) q
  have hst₂ : (((a.decrementPrio .sleep).decrementPrio .running).proc q).state =
      (a.proc q).state := (Table.Reprio.state (decrementPrio_reprio fun r hr =>
        Or.inl (Proc.list_eq_running.mp ((ok₁.mem r _).mp hr))) q).trans hst₁
  have hproc : a.prioadjust.proc q = ((a.decrementPrio .sleep).decrementPrio .running).proc q := by
    simp only [prioadjust, upd_toTable]
    exact promotions_proc ok₂ (by rw [hst₂]; rcases hq with h | h <;> simp [h])
  rw [hproc, decrementPrio_prio (ok₁.nodup _), decrementPrio_prio (ok.nodup _), decrementPrio_lists]
  simp only [ok.mem, Proc.list_eq_running, Proc.list_eq_sleep]
  rcases hq with h | h
  · simp [h]
  · simp [h]

end Queues

/-! ### Promotion promotes everyone -/

/-- What one call of `prioadjust` is for: from `s` with the lists `L` to `s'`. -/
structure PromotesEveryone (s : PTable) (L : ListId → List Slot) (s' : PTable) : Prop where
  decreased : ∀ p, (s.proc p).state = .runnable ∨ (s.proc p).state = .running ∨
    (s.proc p).state = .sleeping → 0 < (s.proc p).prio → (s'.proc p).prio = (s.proc p).prio - 1
  kept : ∀ p, (s.proc p).prio = 0 → (s'.proc p).prio = 0
  first : Chain s'.next (s'.pLists (.ready 0)) (L (.ready 0) ++ L (.ready 1))
  middle : ∀ i j : Fin (MAX + 1), 0 < i → (j : Nat) = i + 1 →
    Chain s'.next (s'.pLists (.ready i)) (L (.ready j))
  last : s'.pLists (.ready (Fin.last MAX)) = none

namespace Queues

variable {a : Queues} {q : Slot}

variable (ok : a.ListsOk)

include ok

/-- With at most one process on each list above `ready[0]`, every list moves as a whole. -/
theorem prioadjust_readyList_short (hshort : ∀ j, 0 < j → (a.readyList j).length ≤ 1) (j : Nat) :
    a.prioadjust.readyList j = (if j = 0 then a.readyList 0 else []) ++ a.readyList (j + 1) := by
  have hhead : ∀ l : List Slot, l.length ≤ 1 → l.head?.toList = l ∧ l.tail = [] := by
    intro l hl
    rcases l with _ | ⟨x, _ | ⟨y, l⟩⟩
    · exact ⟨rfl, rfl⟩
    · exact ⟨rfl, rfl⟩
    · simp at hl
  rw [prioadjust_readyList ok, (hhead _ (hshort (j + 1) (by omega))).1, keptList]
  by_cases hj : j = 0
  · rw [if_pos hj, if_pos hj]
  · rw [if_neg hj, if_neg hj, (hhead _ (hshort j (by omega))).2]

/-- A process on a ready list of the result has the priority of that list. -/
theorem prio_of_mem_readyList (hq : q ∈ a.readyList j) : (a.proc q).prio = (j : Int) := by
  unfold readyList at hq
  by_cases hj : j < MAX + 1
  · rw [dif_pos hj] at hq
    exact (ok.mem_ready.mp hq).2
  · simp [hj] at hq

theorem mem_readyList (hst : (a.proc q).state = .runnable) :
    q ∈ a.readyList (a.proc q).prio.toNat := by
  obtain ⟨h0, h1⟩ := ok.prio q hst
  rw [readyList, dif_pos (by omega), ok.mem_ready]
  refine ⟨hst, ?_⟩
  simp only
  omega

theorem prioadjust_prio_short (hshort : ∀ j, 0 < j → (a.readyList j).length ≤ 1)
    (hst : (a.proc q).state = .runnable ∨ (a.proc q).state = .running ∨
      (a.proc q).state = .sleeping) (hpos : 0 < (a.proc q).prio) :
    (a.prioadjust.proc q).prio = (a.proc q).prio - 1 := by
  rcases hst with hst | hst
  · obtain ⟨k, hk⟩ : ∃ k : Nat, (a.proc q).prio.toNat = k + 1 :=
      ⟨(a.proc q).prio.toNat - 1, by omega⟩
    have hmem : q ∈ a.prioadjust.readyList k := by
      rw [prioadjust_readyList_short ok hshort, ← hk]
      exact List.mem_append_right _ (mem_readyList ok hst)
    have hprio := prio_of_mem_readyList ok.prioadjust hmem
    omega
  · rw [prioadjust_prio_awake ok hst, if_pos (by omega)]

theorem prioadjust_prio_zero (hzero : (a.proc q).prio = 0) : (a.prioadjust.proc q).prio = 0 := by
  by_cases hrun : (a.proc q).state = .runnable
  · have hmem : q ∈ a.prioadjust.readyList 0 := by
      rw [prioadjust_readyList ok, keptList, if_pos rfl]
      have hq := mem_readyList ok hrun
      rw [hzero] at hq
      exact List.mem_append_left _ hq
    exact prio_of_mem_readyList ok.prioadjust hmem
  · by_cases hawake : (a.proc q).state = .running ∨ (a.proc q).state = .sleeping
    · rw [prioadjust_prio_awake ok hawake, if_neg (by simp [hzero]), hzero]
    · rw [not_or] at hawake
      rw [(prioadjust_reprio ok).idle q hrun hawake.1 hawake.2, hzero]

/-- Conversely, if every list has moved as a whole then none had more than one process. -/
theorem readyList_short_of_moved
    (hfirst : a.prioadjust.readyList 0 = a.readyList 0 ++ a.readyList 1)
    (hmiddle : ∀ j, 0 < j → j < MAX → a.prioadjust.readyList j = a.readyList (j + 1)) :
    ∀ j, 0 < j → (a.readyList j).length ≤ 1 := by
  have hhead : ∀ l : List Slot, l.head?.toList = l → l.length ≤ 1 := by
    intro l hl
    rcases l with _ | ⟨x, _ | ⟨y, l⟩⟩
    · simp
    · simp
    · simp at hl
  intro j
  induction j with
  | zero => intro h; omega
  | succ j ih =>
    intro _
    by_cases hj0 : j = 0
    · subst hj0
      rw [prioadjust_readyList ok, keptList, if_pos rfl] at hfirst
      exact hhead _ (List.append_cancel_left hfirst)
    · by_cases hj : j < MAX
      · have hmoved := hmiddle j (by omega) hj
        have htail : (a.readyList j).tail = [] := by
          have hlen := ih (by omega)
          generalize a.readyList j = l at hlen ⊢
          rcases l with _ | ⟨x, _ | ⟨y, l⟩⟩
          · rfl
          · rfl
          · simp at hlen
        rw [prioadjust_readyList ok, keptList, if_neg hj0, htail, List.nil_append] at hmoved
        exact hhead _ hmoved
      · rw [readyList, dif_neg (by omega)]
        simp

end Queues

/-- One call of `prioadjust` promotes every process, and moves every ready list as a whole,
    if and only if each of `ready[1]` to `ready[MAX]` holds at most one process. -/
theorem prioadjust_promotes_everyone_iff (s : PTable) (L : ListId → List Slot)
    (h : StateListInv s L) :
    (∃ s', s.prioadjust = .ok s' ∧ PromotesEveryone s L s') ↔
      ∀ i, 0 < i → (L (.ready i)).length ≤ 1 := by
  obtain ⟨hr, ok⟩ := h.represents
  generalize ha : (⟨s.toTable, L, s.inserts, s.stamp⟩ : Queues) = a at hr ok
  have hL : ∀ i : Fin (MAX + 1), a.readyList i = L (.ready i) := by
    intro i
    rw [Queues.readyList_fin, ← ha]
  have hL0 : a.readyList 0 = L (.ready 0) := hL 0
  have hL1 : a.readyList 1 = L (.ready 1) := hL 1
  obtain ⟨s', hrun, hr'⟩ := hr.prioadjust ok
  have ok' := ok.prioadjust
  have hchain : ∀ i : Fin (MAX + 1),
      Chain s'.next (s'.pLists (.ready i)) (a.prioadjust.readyList i) := by
    intro i
    rw [Queues.readyList_fin]
    exact hr'.chain _
  constructor
  · rintro ⟨s'', hrun', hp⟩
    obtain rfl : s' = s'' := by
      rw [hrun] at hrun'
      exact Except.ok.inj hrun'
    have hfirst : a.prioadjust.readyList 0 = a.readyList 0 ++ a.readyList 1 := by
      rw [hL0, hL1]
      exact (hchain 0).unique hp.first
    have hmiddle : ∀ j, 0 < j → j < MAX → a.prioadjust.readyList j = a.readyList (j + 1) := by
      intro j hj0 hj
      have hmid := hp.middle ⟨j, by omega⟩ ⟨j + 1, by omega⟩ (Fin.mk_lt_mk.mpr hj0) rfl
      rw [← hL] at hmid
      exact (hchain ⟨j, by omega⟩).unique hmid
    intro i hi
    rw [← hL i]
    exact Queues.readyList_short_of_moved ok hfirst hmiddle i hi
  · intro hlen
    have hshort : ∀ j, 0 < j → (a.readyList j).length ≤ 1 := by
      intro j hj
      by_cases hjm : j < MAX + 1
      · have := hlen ⟨j, hjm⟩ (Fin.mk_lt_mk.mpr hj)
        rwa [← hL] at this
      · rw [Queues.readyList, dif_neg hjm]
        simp
    have hmoved := Queues.prioadjust_readyList_short ok hshort
    refine ⟨s', hrun, ?_, ?_, ?_, ?_, ?_⟩
    · intro p hst hpos
      rw [hr.proc] at hst hpos ⊢
      rw [hr'.proc]
      exact Queues.prioadjust_prio_short ok hshort hst hpos
    · intro p hzero
      rw [hr.proc] at hzero
      rw [hr'.proc]
      exact Queues.prioadjust_prio_zero ok hzero
    · have hc := hchain 0
      rw [hmoved] at hc
      simpa [hL0, hL1] using hc
    · intro i j hi hij
      have hc := hchain i
      have hi0 : (i : Nat) ≠ 0 := Nat.pos_iff_ne_zero.mp hi
      rw [hmoved, if_neg hi0, List.nil_append, ← hij, hL] at hc
      exact hc
    · have hc := hchain (Fin.last MAX)
      rw [hmoved, if_neg (by decide), List.nil_append] at hc
      have hout : a.readyList ((Fin.last MAX : Fin (MAX + 1)) + 1 : Nat) = [] := by
        rw [Queues.readyList, dif_neg (by simp)]
      rw [hout] at hc
      exact hc

theorem prioadjust_promotes_everyone_iff_booted : ∃ L, StateListInv bootedTable L ∧
      ((∃ s', bootedTable.prioadjust = .ok s' ∧ PromotesEveryone bootedTable L s') ↔
        ∀ i, 0 < i → (L (.ready i)).length ≤ 1) := by
  obtain ⟨L, hL⟩ := reachable_stateListInv (.init bootedTable_init)
  exact ⟨L, hL, prioadjust_promotes_everyone_iff bootedTable L hL⟩

/-- Init has forked twice and has given both children priority 1. -/
def twoAtOne : PTable :=
  afterActs [.scheduler 0, .resume 0,
    .allocproc 0, .kalloc 0 (some 3), .copyuvm 0 (some 4), .forkFinish 0,
    .allocproc 0, .kalloc 0 (some 5), .copyuvm 0 (some 6), .forkFinish 0,
    .setpriority 0 2 1, .setpriority 0 3 1]

/-- The second process of `ready[1]` keeps its priority. -/
theorem prioadjust_skips_second : ∃ L, StateListInv twoAtOne L ∧
      ¬ ∃ s', twoAtOne.prioadjust = .ok s' ∧ PromotesEveryone twoAtOne L s' := by
  obtain ⟨L, hL⟩ := reachable_stateListInv (afterActs_reachable _ : procSystem.Reachable twoAtOne)
  refine ⟨L, hL, ?_⟩
  rintro ⟨s', hrun, hp⟩
  have hbefore : (twoAtOne.proc 61).state = .runnable ∧ (twoAtOne.proc 61).prio = 1 := by
    decide +kernel
  have hafter : (twoAtOne.prioadjust.toOption.map fun s => (s.proc 61).prio) = some 1 := by
    decide +kernel
  have hdec := hp.decreased 61 (Or.inl hbefore.1) (by rw [hbefore.2]; decide)
  rw [hrun] at hafter
  simp only [Except.toOption, Option.map_some, Option.some.injEq] at hafter
  rw [hafter, hbefore.2] at hdec
  exact absurd hdec (by decide)

end Xv6Kernel
