/-
  LogCrash.lean
  =============
  Crashes during a commit and during recovery.

  `Recoverable s bs d L` relates a disk `d` to the contents `L` of the home blocks that it
  stands for: the header on `d` lists the blocks `bs`, their contents are in the log, and
  the other home blocks have theirs in place.  Writing the header changes what the disk
  stands for from the old contents to the new ones; all other writes of `commit` and all
  writes of recovery leave it as it is.
-/
import Xv6Kernel.LogModel

namespace Xv6Kernel

open CrashDisk Function List

/-! ### The header block -/

theorem decodeHead_encodeHead (h : lh.length ≤ LOGSIZE) (b : Block) :
    decodeHead (encodeHead lh b) = .ok lh := by
  have hsize : LOGSIZE = 30 := rfl
  have hzero : (encodeHead lh b 0).toInt = lh.length := by
    simp only [encodeHead, if_true]
    rw [BitVec.toInt_eq_toNat_cond, BitVec.toNat_ofNat]
    omega
  unfold decodeHead
  rw [hzero, if_pos (by omega)]
  congr 1
  apply ext_getElem
  · simp
  · intro i h₁ h₂
    have hval : (Fin.ofNat NINDIRECT (i + 1)).val = i + 1 := Nat.mod_eq_of_lt (by
      have : NINDIRECT = 128 := rfl
      omega)
    have hne : Fin.ofNat NINDIRECT (i + 1) ≠ 0 := by
      intro hcon
      have := congrArg Fin.val hcon
      rw [hval] at this
      simp at this
    rw [getElem_map, getElem_range]
    simp only [encodeHead, if_neg hne, hval, Nat.add_sub_cancel, getElem?_eq_getElem h₂]

namespace Log

variable {s : Log} {b : BlockNo} {i : Nat}

/-! ### Sequences of writes -/

/-- Write the listed blocks one after the other. -/
def writeAll (ws : List (BlockNo × Block)) (s : Log) : Log :=
  ws.foldl (fun s w => s.bwrite w.1 w.2) s

theorem writeAll_eq (ws : List (BlockNo × Block)) : s.writeAll ws =
    { s with cache := applyWrites s.cache ws, writes := s.writes ++ ws } := by
  induction ws generalizing s with
  | nil => simp [writeAll]
  | cons w ws ih =>
    have hcons : s.writeAll (w :: ws) = (s.bwrite w.1 w.2).writeAll ws := rfl
    rw [hcons, ih]
    simp [bwrite]

/-- The log area, with the header. -/
def InLog (s : Log) (b : BlockNo) : Prop := ∃ k, k ≤ s.size - 1 ∧ b = s.block k

theorem block_inj (hi : i < 2 ^ 32) (hj : j < 2 ^ 32) (h : s.block i = s.block j) : i = j := by
  have h' := congrArg BitVec.toNat (BitVec.add_right_inj s.start |>.mp h)
  rw [BitVec.toNat_ofNat, BitVec.toNat_ofNat] at h'
  omega

/-- The blocks logged are home blocks, and the log area has room for them. -/
structure HomesOk (s : Log) (bs : List BlockNo) : Prop where
  length : bs.length ≤ LOGSIZE
  room : bs.length ≤ s.size - 1
  homes : ∀ b ∈ bs, ¬ s.InLog b

namespace HomesOk

theorem inLog (h : HomesOk s bs) (hi : i ≤ bs.length) : s.InLog (s.block i) :=
  ⟨i, Nat.le_trans hi h.room, rfl⟩

theorem ne_block (h : HomesOk s bs) (hb : b ∈ bs) (hi : i ≤ bs.length) : b ≠ s.block i := by
  rintro rfl
  exact h.homes _ hb (h.inLog hi)

theorem block_ne (h : HomesOk s bs) (hi : i ≤ bs.length) (hj : j ≤ bs.length) (hne : i ≠ j) :
    s.block i ≠ s.block j := by
  have hlen := h.length
  have hsize : LOGSIZE = 30 := rfl
  exact fun hcon => hne (block_inj (by omega) (by omega) hcon)

end HomesOk

theorem block_zero : s.block 0 = s.start := by simp [block]

/-- The writes of `install_trans`, when the cache holds `c`. -/
def installs (s : Log) (bs : List BlockNo) (c : Disk) : List (BlockNo × Block) :=
  bs.zipIdx.map fun e => (e.1, c (s.block (e.2 + 1)))

/-- The writes of `write_log`. -/
def copies (s : Log) (bs : List BlockNo) (c : Disk) : List (BlockNo × Block) :=
  bs.zipIdx.map fun e => (s.block (e.2 + 1), c e.1)

theorem mem_zipIdx_lt {bs : List BlockNo} {e : BlockNo × Nat} (he : e ∈ bs.zipIdx) :
    bs[e.2]? = some e.1 ∧ e.1 ∈ bs ∧ e.2 + 1 ≤ bs.length := by
  have hget : bs[e.2]? = some e.1 := by
    obtain ⟨x, k⟩ := e
    simpa using mem_zipIdx_iff_getElem?.mp he
  obtain ⟨hlt, hval⟩ := List.getElem?_eq_some_iff.mp hget
  exact ⟨hget, hval ▸ getElem_mem hlt, hlt⟩

/-- A loop that copies blocks, none of which it reads after writing it. -/
theorem foldl_copy (src dst : BlockNo → BlockNo × Nat → BlockNo) (es : List (BlockNo × Nat))
    (s : Log) (hne : ∀ e ∈ es, ∀ e' ∈ es, dst s.start e ≠ src s.start e') :
    es.foldl (fun s e => s.bwrite (dst s.start e) (s.bread (src s.start e))) s =
      s.writeAll (es.map fun e => (dst s.start e, s.cache (src s.start e))) := by
  induction es generalizing s with
  | nil => rfl
  | cons e es ih =>
    generalize hs₁ : s.bwrite (dst s.start e) (s.bread (src s.start e)) = s₁
    have hstart : s₁.start = s.start := by rw [← hs₁]; rfl
    have hmap : es.map (fun e' => (dst s₁.start e', s₁.cache (src s₁.start e'))) =
        es.map fun e' => (dst s.start e', s.cache (src s.start e')) := by
      apply map_congr_left
      intro e' he'
      have hcache : s₁.cache (src s.start e') = s.cache (src s.start e') := by
        rw [← hs₁]
        exact update_of_ne (hne e (by simp) e' (by simp [he'])).symm _ _
      rw [hstart, hcache]
    rw [foldl_cons, hs₁, ih s₁ (by
      rw [hstart]
      exact fun x hx y hy => hne x (by simp [hx]) y (by simp [hy])), hmap, ← hs₁]
    rfl

theorem installTrans_eq (h : HomesOk s s.lh) :
    s.installTrans = s.writeAll (s.installs s.lh s.cache) :=
  foldl_copy (fun start e => start + BitVec.ofNat 32 (e.2 + 1)) (fun _ e => e.1) s.lh.zipIdx s
    fun _ he _ he' => h.ne_block (mem_zipIdx_lt he).2.1 (mem_zipIdx_lt he').2.2

theorem writeLog_eq (h : HomesOk s s.lh) : s.writeLog = s.writeAll (s.copies s.lh s.cache) :=
  foldl_copy (fun _ e => e.1) (fun start e => start + BitVec.ofNat 32 (e.2 + 1)) s.lh.zipIdx s
    fun _ he _ he' => (h.ne_block (mem_zipIdx_lt he').2.1 (mem_zipIdx_lt he).2.2).symm

/-! ### What a disk stands for -/

structure Recoverable (s : Log) (bs : List BlockNo) (d L : Disk) : Prop extends HomesOk s bs where
  head : decodeHead (d s.start) = .ok bs
  logged : ∀ i b, bs[i]? = some b → d (s.block (i + 1)) = L b
  home : ∀ b, ¬ s.InLog b → b ∉ bs → d b = L b

namespace Recoverable

variable {bs : List BlockNo} {d L : Disk}

variable (h : Recoverable s bs d L)

include h

/-- Writing a home block with what it should be changes nothing. -/
theorem update_home (hb : ¬ s.InLog b) : Recoverable s bs (update d b (L b)) L := by
  have hlog : ∀ i, i ≤ bs.length → update d b (L b) (s.block i) = d (s.block i) := by
    intro i hi
    apply update_of_ne
    intro hcon
    exact hb (hcon ▸ h.inLog hi)
  refine ⟨h.toHomesOk, ?_, ?_, ?_⟩
  · rw [← block_zero, hlog 0 (Nat.zero_le _), block_zero]
    exact h.head
  · intro i x hx
    rw [hlog (i + 1) (List.getElem?_eq_some_iff.mp hx).1]
    exact h.logged i x hx
  · intro x hx hxb
    by_cases hxeq : x = b
    · rw [hxeq, update_self]
    · rw [update_of_ne hxeq]
      exact h.home x hx hxb

theorem installs_val : ∀ w ∈ s.installs bs d, w.1 ∈ bs ∧ w.2 = L w.1 := by
  intro w hw
  obtain ⟨e, he, rfl⟩ := mem_map.mp hw
  obtain ⟨hget, hmem, -⟩ := mem_zipIdx_lt he
  exact ⟨hmem, h.logged e.2 e.1 hget⟩

theorem installs_step : ∀ d', Recoverable s bs d' L →
    ∀ w ∈ s.installs bs d, Recoverable s bs (update d' w.1 w.2) L := by
  intro d' hd' w hw
  obtain ⟨hmem, hval⟩ := h.installs_val w hw
  rw [hval]
  exact hd'.update_home (h.homes _ hmem)

/-- After all installs every home block is in place. -/
theorem installs_home (hb : ¬ s.InLog b) : applyWrites d (s.installs bs d) b = L b := by
  by_cases hmem : b ∈ bs
  · apply applyWrites_of_mem
    · obtain ⟨i, hi, rfl⟩ := getElem_of_mem hmem
      refine ⟨(bs[i], d (s.block (i + 1))), mem_map.mpr ⟨(bs[i], i), ?_, rfl⟩, rfl⟩
      rw [mem_zipIdx_iff_getElem?]
      simp [hi]
    · rintro w hw rfl
      exact (h.installs_val w hw).2
  · exact (applyWrites_all (P := fun d' => Recoverable s bs d' L) h h.installs_step).home b hb hmem

end Recoverable

/-- When every home block is in place the header can be cleared. -/
theorem recoverable_clear (hhome : ∀ b, ¬ s.InLog b → d b = L b) (c : Block) :
    Recoverable s [] (update d s.start (encodeHead [] c)) L := by
  refine ⟨⟨Nat.zero_le _, Nat.zero_le _, by simp⟩, ?_, by simp, ?_⟩
  · rw [update_self]
    exact decodeHead_encodeHead (Nat.zero_le _) c
  · intro b hb _
    rw [update_of_ne, hhome b hb]
    rintro rfl
    exact hb ⟨0, Nat.zero_le _, block_zero.symm⟩

/-- The writes that install `bs` from the log and clear the header. -/
def installClear (s : Log) (bs : List BlockNo) (d : Disk) : List (BlockNo × Block) :=
  s.installs bs d ++
    [(s.start, encodeHead [] (applyWrites d (s.installs bs d) s.start))]

namespace Recoverable

/-- A crash among these writes leaves the disk standing for the same contents. -/
theorem installClear_take (h : Recoverable s bs d L) (k : Nat) :
    ∃ bs', Recoverable s bs' (applyWrites d ((s.installClear bs d).take k)) L := by
  unfold installClear
  by_cases hk : k ≤ (s.installs bs d).length
  · rw [take_append_of_le_length hk]
    exact ⟨bs, applyWrites_take (P := fun d' => Recoverable s bs d' L) h h.installs_step k⟩
  · rw [take_of_length_le (by simp; omega), applyWrites_append, applyWrites_cons, applyWrites_nil]
    exact ⟨[], recoverable_clear (fun b hb => h.installs_home hb) _⟩

/-- After all of them the header is clear and the home blocks are in place. -/
theorem installClear_all (h : Recoverable s bs d L) :
    (applyWrites d (s.installClear bs d) s.start) 0 = 0 ∧
      ∀ b, ¬ s.InLog b → applyWrites d (s.installClear bs d) b = L b := by
  unfold installClear
  rw [applyWrites_append, applyWrites_cons, applyWrites_nil]
  constructor
  · rw [update_self]
    rfl
  · intro b hb
    rw [update_of_ne, h.installs_home hb]
    rintro rfl
    exact hb ⟨0, Nat.zero_le _, block_zero.symm⟩

end Recoverable

/-! ### Recovery -/

/-- The kernel after a reboot with disk `d`, before `recover_from_log`. -/
def reboot (s : Log) (d : Disk) : Log :=
  { start := s.start, size := s.size, outstanding := 0, committing := false, lh := [],
    cache := d, writes := [] }

/-- Disks that can result from `d` by crashes during recovery. -/
inductive Crashed (s : Log) (d : Disk) : Disk → Prop where
  | none : Crashed s d d
  | again {d' : Disk} {r : Log} (k : Nat) : Crashed s d d' →
      (s.reboot d').recoverFromLog = .ok r → Crashed s d (applyWrites d' (r.writes.take k))

variable {bs : List BlockNo} {d L : Disk}

theorem recoverFromLog_writes (hok : HomesOk s bs) (hhead : decodeHead (s.cache s.start) = .ok bs) :
    ∃ r, s.recoverFromLog = .ok r ∧ r.writes = s.writes ++ s.installClear bs s.cache := by
  have hread : s.readHead = .ok { s with lh := bs } := by
    unfold readHead bread
    rw [hhead]
    rfl
  have hinstall : installTrans { s with lh := bs } =
      writeAll (s.installs bs s.cache) { s with lh := bs } :=
    installTrans_eq (s := { s with lh := bs }) ⟨hok.length, hok.room, hok.homes⟩
  refine ⟨writeHead { installTrans { s with lh := bs } with lh := [] }, ?_, ?_⟩
  · unfold recoverFromLog
    rw [hread]
    rfl
  · rw [hinstall, writeAll_eq]
    simp [writeHead, bwrite, bread, installClear]

theorem Recoverable.recover (h : Recoverable s bs d L) : ∃ r,
    (s.reboot d).recoverFromLog = .ok r ∧ r.writes = s.installClear bs d :=
  recoverFromLog_writes (s := s.reboot d) ⟨h.length, h.room, h.homes⟩ h.head

theorem Recoverable.crashed (h : Recoverable s bs d L) (hc : s.Crashed d d') :
    ∃ bs', Recoverable s bs' d' L := by
  induction hc with
  | none => exact ⟨bs, h⟩
  | again k _ hr ih =>
    obtain ⟨bs', h'⟩ := ih
    obtain ⟨r', hr', hwrites⟩ := h'.recover
    obtain rfl := Except.ok.inj (hr.symm.trans hr')
    rw [hwrites]
    exact h'.installClear_take k

/-! ### The writes of a commit -/

theorem copies_target (hok : HomesOk s bs) {c : Disk} :
    ∀ w ∈ s.copies bs c, s.InLog w.1 ∧ w.1 ≠ s.start := by
  intro w hw
  obtain ⟨e, he, rfl⟩ := mem_map.mp hw
  have hlt := (mem_zipIdx_lt he).2.2
  refine ⟨hok.inLog hlt, ?_⟩
  rw [← block_zero]
  exact hok.block_ne hlt (Nat.zero_le _) (Nat.succ_ne_zero _)

theorem applyWrites_copies (hok : HomesOk s bs) {c : Disk} (hget : bs[i]? = some b) :
    applyWrites d (s.copies bs c) (s.block (i + 1)) = c b := by
  apply applyWrites_of_mem
  · exact ⟨(s.block (i + 1), c b),
      mem_map.mpr ⟨(b, i), mem_zipIdx_iff_getElem?.mpr (by simpa using hget), rfl⟩, rfl⟩
  · intro w hw hwi
    obtain ⟨e, he, rfl⟩ := mem_map.mp hw
    obtain ⟨hget', -, hlt⟩ := mem_zipIdx_lt he
    have hidx : e.2 = i := by
      by_contra hne
      exact hok.block_ne hlt (List.getElem?_eq_some_iff.mp hget).1 (by omega) hwi
    rw [hidx, hget] at hget'
    rw [Option.some.inj hget']

/-- While the header is clear the rest of the log area does not matter. -/
theorem Recoverable.update_log (h : Recoverable s [] d L) (hb : s.InLog b) (hne : b ≠ s.start)
    (x : Block) : Recoverable s [] (update d b x) L := by
  refine ⟨h.toHomesOk, ?_, by simp, ?_⟩
  · rw [update_of_ne hne.symm]
    exact h.head
  · intro a ha hmem
    rw [update_of_ne, h.home a ha hmem]
    rintro rfl
    exact ha hb

theorem Recoverable.copies_take (h : Recoverable s [] d L) (hok : HomesOk s bs) (c : Disk)
    (k : Nat) : Recoverable s [] (applyWrites d ((s.copies bs c).take k)) L := by
  apply applyWrites_take (P := fun d' => Recoverable s [] d' L) h
  intro d' hd' w hw
  obtain ⟨hin, hne⟩ := copies_target hok w hw
  exact hd'.update_log hin hne w.2

/-- Writing the header makes the logged contents the ones that the disk stands for. -/
theorem recoverable_header (hok : HomesOk s bs)
    (hrest : ∀ b, ¬ s.InLog b → b ∉ bs → d b = c b) (x : Block) :
    Recoverable s bs (update (applyWrites d (s.copies bs c)) s.start (encodeHead bs x)) c := by
  refine ⟨hok, ?_, ?_, ?_⟩
  · rw [update_self]
    exact decodeHead_encodeHead hok.length x
  · intro i b hget
    have hne : s.block (i + 1) ≠ s.start := by
      rw [← block_zero]
      exact hok.block_ne (List.getElem?_eq_some_iff.mp hget).1 (Nat.zero_le _) (Nat.succ_ne_zero _)
    rw [update_of_ne hne, applyWrites_copies hok hget]
  · intro b hb hmem
    rw [update_of_ne, applyWrites_of_not_mem, hrest b hb hmem]
    · rintro w hw rfl
      exact hb (copies_target hok w hw).1
    · rintro rfl
      exact hb ⟨0, Nat.zero_le _, block_zero.symm⟩

/-- The writes of installation depend on the log area only, so they are the same whether
    they are computed from the buffer cache or from the disk. -/
theorem installClear_congr (h : Recoverable s bs d L) (h' : Recoverable s bs d' L)
    (hstart : d s.start = d' s.start) : s.installClear bs d = s.installClear bs d' := by
  have hinstalls : s.installs bs d = s.installs bs d' := by
    apply map_congr_left
    intro e he
    have hget := (mem_zipIdx_lt he).1
    rw [h.logged _ _ hget, h'.logged _ _ hget]
  have hhead : ∀ {c : Disk}, applyWrites c (s.installs bs d') s.start = c s.start := by
    intro c
    apply applyWrites_of_not_mem
    rintro w hw hws
    exact h.ne_block (h'.installs_val w hw).1 (Nat.zero_le _) (hws.trans block_zero.symm)
  unfold installClear
  rw [hinstalls, hhead, hhead, hstart]

/-- The header write that commits. -/
def commitHead (s : Log) : BlockNo × Block :=
  (s.start, encodeHead s.lh (applyWrites s.cache (s.copies s.lh s.cache) s.start))

theorem commit_writes (hok : HomesOk s s.lh) (hne : s.lh ≠ []) :
    s.commit.writes = s.writes ++ (s.copies s.lh s.cache ++ s.commitHead :: s.installClear s.lh
        (update (applyWrites s.cache (s.copies s.lh s.cache)) s.start s.commitHead.2)) := by
  generalize hs₂ : s.writeLog.writeHead = s₂
  have heq : s₂ = { s with
      cache := update (applyWrites s.cache (s.copies s.lh s.cache)) s.start s.commitHead.2
      writes := s.writes ++ s.copies s.lh s.cache ++ [s.commitHead] } := by
    rw [← hs₂, writeLog_eq hok, writeAll_eq]
    rfl
  have hok₂ : HomesOk s₂ s₂.lh := by
    rw [heq]
    exact ⟨hok.length, hok.room, hok.homes⟩
  have hcommit : s.commit = writeHead { s₂.installTrans with lh := [] } := by
    unfold commit
    rw [if_pos (length_pos_iff.mpr hne), ← hs₂]
  rw [hcommit, installTrans_eq hok₂, writeAll_eq]
  subst heq
  simp [writeHead, bwrite, bread, installClear, installs, block]

/-- A crash during the commit: up to the header write the disk stands for what it did
    before, and from then on for what the cache holds. -/
theorem commit_take (hok : HomesOk s s.lh) (hwrites : s.writes = []) (hclear : Recoverable s [] d L)
    (hrest : ∀ b, ¬ s.InLog b → b ∉ s.lh → d b = s.cache b) (k : Nat) :
    (k ≤ s.lh.length → ∃ bs, Recoverable s bs (applyWrites d (s.commit.writes.take k)) L) ∧
      (s.lh.length < k →
        ∃ bs, Recoverable s bs (applyWrites d (s.commit.writes.take k)) s.cache) := by
  by_cases hne : s.lh = []
  · have hnone : s.commit.writes = [] := by
      unfold commit
      rw [hne, if_neg (by simp), hwrites]
    rw [hnone, take_nil, applyWrites_nil]
    refine ⟨fun _ => ⟨[], hclear⟩, fun _ => ⟨[], hclear.toHomesOk, hclear.head, by simp, ?_⟩⟩
    intro b hb _
    exact hrest b hb (by simp [hne])
  have hdisk := recoverable_header hok hrest (applyWrites s.cache (s.copies s.lh s.cache) s.start)
  have hcache := recoverable_header hok (d := s.cache) (fun _ _ _ => rfl)
    (applyWrites s.cache (s.copies s.lh s.cache) s.start)
  have hlen : (s.copies s.lh s.cache).length = s.lh.length := by simp [copies]
  rw [commit_writes hok hne, hwrites, nil_append, ← hlen]
  apply applyWrites_take_append (P := fun d' => ∃ bs, Recoverable s bs d' L)
    (Q := fun d' => ∃ bs, Recoverable s bs d' s.cache)
  · intro _
    exact ⟨[], hclear.copies_take hok s.cache k⟩
  · intro hk
    obtain ⟨m, hm⟩ : ∃ m, k - (s.copies s.lh s.cache).length = m + 1 :=
      ⟨k - (s.copies s.lh s.cache).length - 1, by omega⟩
    rw [hm, take_succ_cons, applyWrites_cons]
    unfold commitHead
    rw [installClear_congr hcache hdisk (by rw [update_self, update_self])]
    exact hdisk.installClear_take m

/-! ### The calls of `log_write` -/

theorem logWrite_ok (h : s.logWrite b x = .ok s') : s.logTest = .ok () ∧ s' = s.logAppend b x := by
  cases htest : s.logTest with
  | error e => simp [logWrite, htest, bind, Except.bind] at h
  | ok u =>
    simp only [logWrite, htest, bind, Except.bind, pure, Except.pure, Except.ok.injEq] at h
    exact ⟨rfl, h.symm⟩

/-- What the calls of `log_write` since the state `s₀` have done. -/
structure Logged (s₀ s : Log) : Prop extends HomesOk s₀ s.lh where
  start : s.start = s₀.start
  size : s.size = s₀.size
  writes : s.writes = s₀.writes
  rest : ∀ b, b ∉ s.lh → s.cache b = s₀.cache b

variable {s' : Log}

theorem Logged.logWrite (h : Logged s₀ s) (hb : ¬ s₀.InLog b)
    (hw : s.logWrite b x = .ok s') : Logged s₀ s' := by
  obtain ⟨htest, rfl⟩ := logWrite_ok hw
  obtain ⟨hlog, hroom, -⟩ := logTest_ok htest
  refine ⟨⟨?_, ?_, ?_⟩, h.start, h.size, h.writes, ?_⟩
  · exact Nat.le_trans length_logAppend_lh hlog
  · rw [← h.size]
    exact Nat.le_trans length_logAppend_lh hroom
  · intro a ha
    rcases mem_logAppend_lh.mp ha with ha | rfl
    · exact h.homes a ha
    · exact hb
  · intro a ha
    rw [mem_logAppend_lh] at ha
    push Not at ha
    exact (update_of_ne ha.2 _ _).trans (h.rest a ha.1)

theorem Logged.logWrites (h : Logged s₀ s)
    (hout : ∀ w ∈ ws, ¬ s₀.InLog w.1) (hw : s.logWrites ws = .ok s') :
    Logged s₀ s' ∧ s'.cache = applyWrites s.cache ws := by
  induction ws generalizing s with
  | nil =>
    obtain rfl := Except.ok.inj hw
    exact ⟨h, rfl⟩
  | cons w ws ih =>
    cases hw₁ : s.logWrite w.1 w.2 with
    | error e => simp [Log.logWrites, hw₁, bind, Except.bind] at hw
    | ok s₁ =>
      have hrest : s₁.logWrites ws = .ok s' := by
        simpa [Log.logWrites, hw₁, bind, Except.bind] using hw
      obtain ⟨hlogged, hcache⟩ := ih (h.logWrite (hout w (by simp)) hw₁)
        (fun v hv => hout v (by simp [hv])) hrest
      have hcache₁ : s₁.cache = update s.cache w.1 w.2 := by
        rw [(logWrite_ok hw₁).2]
        rfl
      exact ⟨hlogged, by rw [hcache, hcache₁, applyWrites_cons]⟩

/-- The writes of a transaction that calls `log_write` for `ws` and then commits; if one of
    the calls panics there are none. -/
def transWrites (s : Log) (ws : List (BlockNo × Block)) : List (BlockNo × Block) :=
  match s.logWrites ws with
  | .ok s₁ => s₁.commit.writes
  | .error _ => []

theorem inLog_congr (hstart : s'.start = s.start) (hsize : s'.size = s.size) :
    s'.InLog b ↔ s.InLog b := by
  simp [InLog, block, hstart, hsize]

theorem Recoverable.congr (hstart : s'.start = s.start) (hsize : s'.size = s.size)
    (h : Recoverable s bs d L) : Recoverable s' bs d L := by
  refine ⟨⟨h.length, hsize ▸ h.room, ?_⟩, hstart ▸ h.head, ?_, ?_⟩
  · intro b hb
    exact (inLog_congr hstart hsize).not.mpr (h.homes b hb)
  · intro i b hget
    rw [show s'.block (i + 1) = s.block (i + 1) by simp [block, hstart]]
    exact h.logged i b hget
  · intro b hb
    exact h.home b ((inLog_congr hstart hsize).not.mp hb)

/-- A crash during a transaction that started with a clear log: the disk stands for the
    old contents or for the new ones, and for the new ones once the header is written. -/
theorem transWrites_take (hlh : s.lh = []) (hwrites : s.writes = []) (hhead : s.cache s.start 0 = 0)
    (hout : ∀ w ∈ ws, ¬ s.InLog w.1) (k : Nat) :
    ((∃ bs, Recoverable s bs (applyWrites s.cache ((s.transWrites ws).take k)) s.cache) ∨
      ∃ bs, Recoverable s bs (applyWrites s.cache ((s.transWrites ws).take k))
        (applyWrites s.cache ws)) ∧
    ∀ s₁, s.logWrites ws = .ok s₁ → s₁.lh.length < k →
      ∃ bs, Recoverable s bs (applyWrites s.cache ((s.transWrites ws).take k))
        (applyWrites s.cache ws) := by
  have hclear : Recoverable s [] s.cache s.cache := by
    refine ⟨⟨Nat.zero_le _, Nat.zero_le _, by simp⟩, ?_, by simp, fun _ _ _ => rfl⟩
    simp [decodeHead, hhead]
  cases hlog : s.logWrites ws with
  | error e =>
    have hnone : s.transWrites ws = [] := by simp [transWrites, hlog]
    rw [hnone, take_nil, applyWrites_nil]
    exact ⟨Or.inl ⟨[], hclear⟩, fun s₁ h => by cases h⟩
  | ok s₁ =>
    have hstart₀ : Logged s s :=
      ⟨⟨by simp [hlh], by simp [hlh], by simp [hlh]⟩, rfl, rfl, rfl, fun _ _ => rfl⟩
    obtain ⟨hl, hcache⟩ := hstart₀.logWrites hout hlog
    have hcommits : s.transWrites ws = s₁.commit.writes := by simp [transWrites, hlog]
    have hok₁ : HomesOk s₁ s₁.lh :=
      ⟨hl.length, hl.size ▸ hl.room, fun b hb => (inLog_congr hl.start hl.size).not.mpr
        (hl.homes b hb)⟩
    obtain ⟨hold, hnew⟩ := commit_take hok₁ (hl.writes.trans hwrites)
      (hclear.congr hl.start hl.size) (fun b _ hb => (hl.rest b hb).symm) k
    rw [hcommits, ← hcache]
    have hback : ∀ {L' : Disk},
        (∃ bs, Recoverable s₁ bs (applyWrites s.cache (s₁.commit.writes.take k)) L') →
        ∃ bs, Recoverable s bs (applyWrites s.cache (s₁.commit.writes.take k)) L' :=
      fun ⟨bs, h⟩ => ⟨bs, h.congr hl.start.symm hl.size.symm⟩
    refine ⟨?_, ?_⟩
    · by_cases hk : k ≤ s₁.lh.length
      · exact Or.inl (hback (hold hk))
      · exact Or.inr (hback (hnew (by omega)))
    · intro s₂ hs₂ hk
      obtain rfl := Except.ok.inj hs₂
      exact hback (hnew hk)

/-- Recovery restores the contents that the disk stands for, whatever crashes interrupted
    earlier attempts. -/
theorem Recoverable.restores (h : Recoverable s bs d L) (hc : s.Crashed d d') : ∃ r,
    (s.reboot d').recoverFromLog = .ok r ∧ applyWrites d' r.writes s.start 0 = 0 ∧
      ∀ b, ¬ s.InLog b → applyWrites d' r.writes b = L b := by
  obtain ⟨bs', h'⟩ := h.crashed hc
  obtain ⟨r, hr, hwrites⟩ := h'.recover
  refine ⟨r, hr, ?_⟩
  rw [hwrites]
  exact h'.installClear_all

/-- Crash atomicity: whenever the machine crashes during the commit, and however often it
    crashes again during recovery, a completed recovery leaves the header clear and the home
    blocks either all as before the transaction or all as after it.  Once the header has
    been written, which is the write after those of the logged blocks, it is the latter. -/
theorem transaction_crash_atomic {ws : List (BlockNo × Block)} (hlh : s.lh = [])
    (hwrites : s.writes = []) (hhead : s.cache s.start 0 = 0)
    (hout : ∀ w ∈ ws, ¬ s.InLog w.1) (k : Nat)
    (hcrash : s.Crashed (applyWrites s.cache ((s.transWrites ws).take k)) d) :
    ∃ r, (s.reboot d).recoverFromLog = .ok r ∧ applyWrites d r.writes s.start 0 = 0 ∧
      ((∀ b, ¬ s.InLog b → applyWrites d r.writes b = s.cache b) ∨
        ∀ b, ¬ s.InLog b → applyWrites d r.writes b = applyWrites s.cache ws b) ∧
      ∀ s₁, s.logWrites ws = .ok s₁ → s₁.lh.length < k →
        ∀ b, ¬ s.InLog b → applyWrites d r.writes b = applyWrites s.cache ws b := by
  obtain ⟨hdisk, hafter⟩ := transWrites_take hlh hwrites hhead hout k
  have hnew : (∃ bs, Recoverable s bs (applyWrites s.cache ((s.transWrites ws).take k))
      (applyWrites s.cache ws)) → ∃ r, (s.reboot d).recoverFromLog = .ok r ∧
      applyWrites d r.writes s.start 0 = 0 ∧
      ∀ b, ¬ s.InLog b → applyWrites d r.writes b = applyWrites s.cache ws b :=
    fun ⟨_, h⟩ => h.restores hcrash
  rcases hdisk with ⟨bs, hold⟩ | hdisk
  · obtain ⟨r, hr, hclear, hhome⟩ := hold.restores hcrash
    refine ⟨r, hr, hclear, Or.inl hhome, ?_⟩
    intro s₁ hs₁ hk
    obtain ⟨r', hr', -, hhome'⟩ := hnew (hafter s₁ hs₁ hk)
    obtain rfl := Except.ok.inj (hr.symm.trans hr')
    exact hhome'
  · obtain ⟨r, hr, hclear, hhome⟩ := hnew hdisk
    exact ⟨r, hr, hclear, Or.inr hhome, fun _ _ _ => hhome⟩

/-- An empty disk with the log at blocks 2 to 31, inside a transaction. -/
def emptyLog : Log :=
  { start := 2, size := 30, outstanding := 1, committing := false, lh := [],
    cache := fun _ _ => 0, writes := [] }

/-- Three calls of `log_write`, two of them for the same block. -/
def threeWrites : List (BlockNo × Block) :=
  [(100, fun _ => 7), (101, fun _ => 8), (100, fun _ => 9)]

/-- The disk after a crash just after the header write and another one after the first
    write of recovery. -/
def crashedTwice : Disk :=
  let d := applyWrites emptyLog.cache ((emptyLog.transWrites threeWrites).take 3)
  match (emptyLog.reboot d).recoverFromLog with
  | .ok r => applyWrites d (r.writes.take 1)
  | .error _ => d

theorem transaction_crash_atomic_threeWrites : ∃ r,
    (emptyLog.reboot crashedTwice).recoverFromLog = .ok r ∧
      applyWrites crashedTwice r.writes 100 = (fun _ => 9) ∧
      applyWrites crashedTwice r.writes 101 = (fun _ => 8) := by
  have hout : ∀ b, 32 ≤ b.toNat → ¬ emptyLog.InLog b := by
    rintro b hb ⟨k, hk, rfl⟩
    have hstart : emptyLog.start.toNat = 2 := rfl
    have hsize : emptyLog.size = 30 := rfl
    rw [block, BitVec.toNat_add, BitVec.toNat_ofNat] at hb
    omega
  have hcrash : emptyLog.Crashed
      (applyWrites emptyLog.cache ((emptyLog.transWrites threeWrites).take 3)) crashedTwice :=
    .again 1 .none rfl
  obtain ⟨r, hr, -, -, hnew⟩ := transaction_crash_atomic (s := emptyLog) rfl rfl rfl (by
      intro w hw
      apply hout
      simp only [threeWrites, mem_cons, not_mem_nil, or_false] at hw
      rcases hw with rfl | rfl | rfl <;> decide) 3 hcrash
  have hhome := hnew _ rfl (by decide)
  exact ⟨r, hr, hhome 100 (hout _ (by decide)), hhome 101 (hout _ (by decide))⟩

end Log

end Xv6Kernel
