/-
  ArgStack.lean
  =============
  The arguments on the stack of a new program.

  `exec` pushes the strings and then the words of `ustack` with `copyout`, which is stopped by the
  guard page below the stack page, or by the devices if the stack pointer wraps around.  If the
  stack page is there, the words and the strings are in it when `exec` returns 0.  `allocuvm` may
  have left it out, though: the page table of the stack page may have been refused, and `uva2ka`
  then takes the frame from the word at address 0.
-/
import Xv6Kernel.ExecImage

namespace Xv6Kernel

open PanicMonad List

namespace Ram

/-! ### Words and strings in user memory -/

/-- The word at a user address. -/
def userWord (d : PageDir) (s : Ram) (a : Nat) : Option Nat := do
  let b₀ ← userByte d s a
  let b₁ ← userByte d s (a + 1)
  let b₂ ← userByte d s (a + 2)
  let b₃ ← userByte d s (a + 3)
  return leNat [b₀, b₁, b₂, b₃] 0 4

/-- The string at a user address is `arg`. -/
def StringAt (d : PageDir) (s : Ram) (p : Nat) (arg : List Byte) : Prop :=
  ∀ j ≤ arg.length, userByte d s (p + j) = some ((arg ++ [0]).getD j 0)

/-- The bytes that a string takes on the stack. -/
def pad (n : Nat) : Nat := (n + 3) / 4 * 4

/-- The bytes that the arguments take on the stack. -/
def argSpace (argv : List (List Byte)) : Nat :=
  (argv.map fun arg => pad (arg.length + 1)).sum + (3 + argv.length + 1) * 4

/-- The regions with the three first words, the pointers and the strings: their addresses and
    lengths. -/
def regions (esp : Nat) (ptrs : List Nat) (argv : List (List Byte)) : List (Nat × Nat) :=
  (esp, 12) :: (esp + 12, (argv.length + 1) * 4) ::
    List.zipWith (fun p arg => (p, arg.length + 1)) ptrs argv

/-- The stack of the new program decodes to `argv`. -/
structure Decodes (d : PageDir) (sz esp : Nat) (s : Ram) (argv : List (List Byte))
    (ptrs : List Nat) : Prop where
  ret : userWord d s esp = some 0xffffffff
  argc : userWord d s (esp + 4) = some argv.length
  vector : userWord d s (esp + 8) = some (esp + 12)
  pointers : ∀ i p, ptrs[i]? = some p → userWord d s (esp + 12 + 4 * i) = some p
  last : userWord d s (esp + 12 + 4 * argv.length) = some 0
  strings : List.Forall₂ (StringAt d s) ptrs argv
  disjoint : (regions esp ptrs argv).Pairwise
    fun r r' => r.1 + r.2 ≤ r'.1 ∨ r'.1 + r'.2 ≤ r.1
  inside : ∀ r ∈ regions esp ptrs argv, r.1 % 4 = 0 ∧ sz - PGSIZE ≤ r.1 ∧ r.1 + r.2 ≤ sz

theorem leNat_word (hw : w < ADDRESSES) : leNat (word w) 0 4 = w := by
  unfold ADDRESSES at hw
  simp only [word, leNat, getD_cons_zero, getD_cons_succ, BitVec.toNat_ofNat]
  omega

variable {i p : Nat} {l : List Nat}

theorem getD_flatMap_word (hi : i < l.length) (hj : j < 4) :
    (l.flatMap word).getD (4 * i + j) 0 = (word (l.getD i 0)).getD j 0 := by
  induction l generalizing i with
  | nil => exact absurd hi (Nat.not_lt_zero i)
  | cons w l ih =>
    have hlen : (word w).length = 4 := rfl
    rw [flatMap_cons, getD_eq_getElem?_getD]
    cases i with
    | zero =>
      rw [Nat.mul_zero, Nat.zero_add, getElem?_append_left (by omega)]
      rfl
    | succ i =>
      rw [getElem?_append_right (by omega), hlen, getD_cons_succ,
        show 4 * (i + 1) + j - 4 = 4 * i + j by omega, ← getD_eq_getElem?_getD]
      exact ih (Nat.lt_of_succ_lt_succ hi)

section

variable {d : PageDir} {s : Ram} {mem : Nat → Byte}

theorem PagesHold.userWord (h : PagesHold d mem s) (ha : ∀ j < 4, IsUser d (a + j))
    (hw : w < ADDRESSES) (hmem : ∀ j < 4, mem (a + j) = (word w).getD j 0) :
    Ram.userWord d s a = some w := by
  unfold Ram.userWord
  have hbyte : ∀ j < 4, Ram.userByte d s (a + j) = some ((word w).getD j 0) := by
    intro j hj
    rw [h.userByte (ha j hj), hmem j hj]
  have hzero := hbyte 0 (by decide)
  rw [Nat.add_zero] at hzero
  rw [hzero, hbyte 1 (by decide), hbyte 2 (by decide), hbyte 3 (by decide)]
  exact congrArg some (leNat_word hw)

/-- A word of a block of words. -/
theorem PagesHold.userWord_put
    (h : PagesHold d (put mem va (l.length * 4) (l.flatMap word)) s) (hi : i < l.length)
    (ha : ∀ a, va ≤ a → a < va + l.length * 4 → IsUser d a) (hw : l.getD i 0 < ADDRESSES) :
    Ram.userWord d s (va + 4 * i) = some (l.getD i 0) := by
  refine h.userWord (fun j hj => ha _ (by omega) (by omega)) hw fun j hj => ?_
  unfold put
  rw [if_pos (by omega), show va + 4 * i + j - va = 4 * i + j by omega]
  exact getD_flatMap_word hi hj

end

/-! ### Strings that have been pushed -/

/-- The strings `args` have been pushed from `top` down to `sp`, to `ptrs`. -/
inductive Pushed (m : Nat → Byte) (top : Nat) : List Nat → List (List Byte) → Nat → Prop where
  | nil : Pushed m top [] [] top
  | push {ptrs : List Nat} {args : List (List Byte)} {sp p : Nat} {arg : List Byte} :
      Pushed m top ptrs args sp → p + pad (arg.length + 1) = sp →
      (∀ j ≤ arg.length, m (p + j) = (arg ++ [0]).getD j 0) →
      Pushed m top (ptrs ++ [p]) (args ++ [arg]) p

theorem le_pad (n : Nat) : n ≤ pad n := by
  unfold pad
  omega

theorem pad_mod (n : Nat) : pad n % 4 = 0 := Nat.mul_mod_left _ _

section

variable {m : Nat → Byte} {top sp : Nat} {ptrs : List Nat} {args : List (List Byte)}

variable (h : Pushed m top ptrs args sp)

include h

theorem Pushed.space : sp + (args.map fun arg => pad (arg.length + 1)).sum = top := by
  induction h with
  | nil => rfl
  | push _ hp _ ih =>
    rw [map_append, sum_append, map_singleton, sum_singleton]
    omega

theorem Pushed.length : ptrs.length = args.length := by
  induction h with
  | nil => rfl
  | push _ _ _ ih => rw [length_append, length_append, ih]; rfl

theorem Pushed.aligned (htop : top % 4 = 0) : sp % 4 = 0 := by
  induction h with
  | nil => exact htop
  | @push _ _ _ p arg _ hp _ ih =>
    have hpad := pad_mod (arg.length + 1)
    omega

/-- What is below `sp` does not matter. -/
theorem Pushed.congr (heq : ∀ a, sp ≤ a → a < top → m' a = m a) : Pushed m' top ptrs args sp := by
  have hspace := h.space
  induction h with
  | nil => exact .nil
  | @push ptrs args sp p arg hrest hp hbytes ih =>
    have hrest' := hrest.space
    have hpad := le_pad (arg.length + 1)
    refine .push (ih (fun a ha hlt => heq a (by omega) hlt) hrest') hp fun j hj => ?_
    rw [heq (p + j) (by omega) (by omega)]
    exact hbytes j hj

theorem Pushed.strings : List.Forall₂ (fun p arg => sp ≤ p ∧ p + arg.length < top ∧
      ∀ j ≤ arg.length, m (p + j) = (arg ++ [0]).getD j 0) ptrs args := by
  induction h with
  | nil => exact .nil
  | @push ptrs args sp p arg hrest hp hbytes ih =>
    have hspace := hrest.space
    have hpad := le_pad (arg.length + 1)
    refine rel_append (ih.imp fun q arg' hq => ⟨by omega, hq.2⟩) (.cons ?_ .nil)
    exact ⟨le_rfl, by omega, hbytes⟩

theorem Pushed.pointer_lt : ∀ p ∈ ptrs, p < top := by
  induction h with
  | nil => exact fun p hp => absurd hp not_mem_nil
  | @push ptrs args sp p arg hrest hp _ ih =>
    intro q hq
    rcases mem_append.mp hq with hq | hq
    · exact ih q hq
    · have hspace := hrest.space
      have hpad := le_pad (arg.length + 1)
      rw [mem_singleton.mp hq]
      omega

/-- The regions of the strings. -/
theorem Pushed.regions (htop : top % 4 = 0) :
    (List.zipWith (fun p arg => (p, arg.length + 1)) ptrs args).Pairwise
      (fun r r' => r.1 + r.2 ≤ r'.1 ∨ r'.1 + r'.2 ≤ r.1) ∧
    ∀ r ∈ List.zipWith (fun p arg => (p, arg.length + 1)) ptrs args,
      r.1 % 4 = 0 ∧ sp ≤ r.1 ∧ r.1 + r.2 ≤ top := by
  induction h with
  | nil => exact ⟨.nil, fun r hr => absurd hr not_mem_nil⟩
  | @push ptrs args sp p arg hrest hp _ ih =>
    have hspace := hrest.space
    have hal := hrest.aligned htop
    have hmod := pad_mod (arg.length + 1)
    have hpad := le_pad (arg.length + 1)
    obtain ⟨hpair, hin⟩ := ih
    rw [zipWith_append hrest.length]
    refine ⟨pairwise_append.mpr ⟨hpair, pairwise_singleton _ _, ?_⟩, fun r hr => ?_⟩
    · intro r hr r' hr'
      rw [zipWith_cons_cons, zipWith_nil_left, mem_singleton] at hr'
      obtain ⟨_, hle, _⟩ := hin r hr
      rw [hr']
      omega
    · rcases mem_append.mp hr with hr | hr
      · obtain ⟨h₁, h₂, h₃⟩ := hin r hr
        exact ⟨h₁, by omega, h₃⟩
      · rw [zipWith_cons_cons, zipWith_nil_left, mem_singleton] at hr
        rw [hr]
        omega

end

/-! ### `copyout` above the guard page -/

/-- If `copyout` returns 0, `uva2ka` has found a frame for every page. -/
theorem copyoutLoop_true_wp (hva : va < ADDRESSES) : wp (copyoutLoop word0 d fuel va buf)
      (fun r _ => r = true → ∀ i < buf.length,
        (uva2ka word0 d (pgRoundDown ((va + i) % ADDRESSES))).isSome = true)
      (fun _ _ => True) s := by
  induction fuel generalizing s va buf with
  | zero => exact fun h => nomatch h
  | succ fuel ih =>
    refine wp_ite (fun _ => ?_) fun hzero _ i hi => absurd hi (by omega)
    cases hka : uva2ka word0 d (pgRoundDown va) with
    | none => exact fun h => nomatch h
    | some pa =>
      rw [wp_bind]
      have hany : wp (store pa (va - pgRoundDown va) (buf.take (copyChunk va buf.length)))
          (fun _ _ => True) (fun _ _ => True) s :=
        wp_of_forall (fun _ _ => trivial) fun _ _ => trivial
      refine wp_mono hany (fun _ s₁ _ => ?_) fun _ _ _ => trivial
      refine wp_mono (ih (Nat.mod_lt _ (by decide))) (fun r s' hr htrue i hi => ?_)
        fun _ _ _ => trivial
      by_cases hpage : i < copyChunk va buf.length
      · have hsame : pgRoundDown ((va + i) % ADDRESSES) = pgRoundDown va := by
          unfold copyChunk at hpage
          unfold pgRoundDown at *
          unfold PGSIZE ADDRESSES at *
          omega
        rw [hsame, hka]
        rfl
      · have hrest := hr htrue (i - copyChunk va buf.length) (by rw [length_drop]; omega)
        have hsum : pgRoundDown va + PGSIZE + (i - copyChunk va buf.length) = va + i := by
          have hdown : va - pgRoundDown va < PGSIZE ∧ pgRoundDown va ≤ va := by
            unfold pgRoundDown PGSIZE
            omega
          unfold copyChunk at hpage ⊢
          omega
        rw [Nat.mod_add_mod, hsum] at hrest
        exact hrest

/-- The stack page at `base` and the guard page below it. -/
structure StackPage (d : PageDir) (base : Nat) : Prop where
  aligned : base % PGSIZE = 0
  pos : PGSIZE ≤ base
  bound : base + PGSIZE < KERNBASE
  table : (d.tables (PDX (base - PGSIZE))).isSome = true
  guard : ¬ IsUser d (base - PGSIZE)

/-- The devices are not for users. -/
theorem UserOk.uva2ka_device (h : UserOk K d k) (hle : DEVSPACE ≤ a)
    (hlt : a < ADDRESSES) : uva2ka word0 d (pgRoundDown a) = none := by
  have hdown : DEVSPACE ≤ pgRoundDown a ∧ pgRoundDown a < ADDRESSES := by
    unfold DEVSPACE ADDRESSES at *
    unfold pgRoundDown PGSIZE
    omega
  have hkernel : (kernelPte K (pgRoundDown a)).isSome = true := by
    have hsize : DEVSPACE + Kmap.size ⟨DEVSPACE, DEVSPACE, 0, true⟩ = ADDRESSES := by decide
    have hin : DEVSPACE ≤ pgRoundDown a ∧
        pgRoundDown a < DEVSPACE + Kmap.size ⟨DEVSPACE, DEVSPACE, 0, true⟩ := by omega
    unfold kernelPte rangesPte kmap
    simp only [foldl_cons, foldl_nil, if_pos hin, Option.isSome_some]
  have hsome := h.mapped _ (pgRoundDown_aligned a) hkernel
  refine uva2ka_not_user (tables_of_getPte hsome) fun ⟨e, hget, hu⟩ => ?_
  rw [h.kernel _ e (kernbase_le_of_kernelPte hkernel) hget] at hu
  cases hu

/-- A copy that succeeds does not reach below the stack page. -/
theorem copyout_above_wp (hst : StackPage d base) (h : UserOk K d s.toKmem) (hpos : 0 < buf.length)
    (hor : (DEVSPACE ≤ va ∧ va < ADDRESSES) ∨
      (va + buf.length ≤ base + PGSIZE ∧ base - PGSIZE < va + buf.length)) :
    wp (copyout word0 d va buf)
      (fun r _ => r = true → base ≤ va ∧ va + buf.length ≤ base + PGSIZE) (fun _ _ => True) s := by
  have hbound := hst.bound
  have hkern : KERNBASE < ADDRESSES := by decide
  have hva : va < ADDRESSES := by
    rcases hor with ⟨_, hlt⟩ | ⟨hle, _⟩
    · exact hlt
    · omega
  unfold copyout lift
  rw [wp_bind, wp_zoom]
  refine recordCall_wp (wp_mono (copyoutLoop_true_wp hva) (fun r _ hr htrue => ?_)
    fun _ _ _ => trivial)
  rcases hor with ⟨hdev, hlt⟩ | ⟨hend, hguard⟩
  · have hfirst := hr htrue 0 hpos
    rw [Nat.add_zero, Nat.mod_eq_of_lt hva, h.uva2ka_device hdev hlt] at hfirst
    cases hfirst
  · refine ⟨?_, hend⟩
    by_contra hbelow
    -- the first byte of the copy that is in the guard page
    have hpage := hr htrue (base - PGSIZE - va) (by omega)
    have hmem : pgRoundDown ((va + (base - PGSIZE - va)) % ADDRESSES) = base - PGSIZE := by
      have hal := hst.aligned
      unfold pgRoundDown
      unfold PGSIZE ADDRESSES KERNBASE at *
      omega
    rw [hmem, uva2ka_not_user hst.table hst.guard] at hpage
    cases hpage

/-! ### `pushArgs` -/

theorem store_kmem_wp {pa off : Nat} {l : List Byte} :
    wp (store pa off l) (fun _ s' => s'.toKmem = s.toKmem ∧ s'.refusals = s.refusals)
      (fun _ _ => True) s := by
  unfold store lift
  rw [wp_bind, wp_zoom]
  exact storeTo_iff_wp (fun _ => ⟨rfl, rfl⟩) fun _ => trivial

/-- `copyout` into the stack page. -/
theorem copyout_stack_wp (hst : StackPage d base) (hu : IsUser d base)
    (h : UserMem K d m s) (hpos : 0 < buf.length) (hor : (DEVSPACE ≤ va ∧ va < ADDRESSES) ∨
      (va + buf.length ≤ base + PGSIZE ∧ base - PGSIZE < va + buf.length)) :
    wp (copyout word0 d va buf)
      (fun r s' => r = true → base ≤ va ∧ va + buf.length ≤ base + PGSIZE ∧
        UserMem K d (put m va buf.length buf) s' ∧ s'.free = s.free)
      (fun _ _ => True) s := by
  have habove : wp (copyout word0 d va buf)
      (fun r _ => r = true → base ≤ va ∧ va + buf.length ≤ base + PGSIZE) (fun _ _ => True) s :=
    copyout_above_wp hst h.ok hpos hor
  by_cases hin : base ≤ va ∧ va + buf.length ≤ base + PGSIZE
  · have hbound := hst.bound
    have hkern : KERNBASE < ADDRESSES := by decide
    have hpage : ∀ i < buf.length, IsUser d ((va + i) % ADDRESSES) := by
      intro i hi
      have hal := hst.aligned
      refine isUser_of_page hu ?_
      rw [Nat.mod_eq_of_lt (by omega)]
      unfold PGSIZE at *
      omega
    have ht : TablesThere d va buf.length := by
      intro i hi _
      obtain ⟨e, hget, _⟩ := hpage i hi
      exact tables_of_getPte (by rw [hget]; rfl)
    refine wp_mono (copyout_copied_wp h.ok (by omega) ht) ?_ fun _ _ _ => trivial
    rintro r s' ⟨n, calls, hc⟩ htrue
    have hn := hc.all htrue
    have hstored := hc.stored
    rw [hn] at hstored
    refine ⟨hin.1, hin.2, h.stored ⟨hstored.user, hstored.others⟩ ?_, by rw [hc.kmem]⟩
    rw [hc.kmem]
    exact h.ok.record calls
  · exact wp_mono habove (fun r s' hr htrue => absurd (hr htrue) hin) fun _ _ _ => trivial

/-- Where the next string goes: below the last one, or to the devices. -/
theorem below_cases (hsp : sp < KERNBASE) (hal : sp % 4 = 0) (hlen : len < 0x1000000) :
    (DEVSPACE ≤ below sp len ∧ below sp len < ADDRESSES) ∨ below sp len + pad (len + 1) = sp := by
  unfold below pad
  unfold DEVSPACE ADDRESSES KERNBASE at *
  omega

theorem pushArgs_pushed_wp (hst : StackPage d base) (hu : IsUser d base)
    (h : UserMem K d m s) (hp : Pushed m (base + PGSIZE) ptrs done sp) (hsp : base ≤ sp)
    (hlen : ∀ arg ∈ args, arg.length < 0x1000000) :
    wp (pushArgs word0 d ptrs sp args)
      (fun r s' => ∀ ptrs' sp', r = some (ptrs', sp') → ∃ m', UserMem K d m' s' ∧
        Pushed m' (base + PGSIZE) ptrs' (done ++ args) sp' ∧ base ≤ sp' ∧ s'.free = s.free)
      (fun _ _ => True) s := by
  induction args generalizing s m ptrs sp done with
  | nil =>
    intro ptrs' sp' heq
    cases heq
    rw [append_nil]
    exact ⟨m, h, hp, hsp, rfl⟩
  | cons arg args ih =>
    have hspace := hp.space
    have hbound := hst.bound
    have htop : (base + PGSIZE) % 4 = 0 := by
      have hal := hst.aligned
      unfold PGSIZE at *
      omega
    have hal := hp.aligned htop
    have hpad := le_pad (arg.length + 1)
    have hcases := below_cases (show sp < KERNBASE by omega) hal (hlen arg mem_cons_self)
    have hbuf : (arg ++ [0]).length = arg.length + 1 := length_append
    refine wp_ite (fun _ _ _ heq => by cases heq) fun _ => ?_
    refine wp_seq (copyout_stack_wp hst hu h (by omega) ?_) fun r s₁ hr => ?_
    · rcases hcases with hdev | hbelow
      · exact Or.inl hdev
      · refine Or.inr ⟨by omega, ?_⟩
        have hup : pad (arg.length + 1) < arg.length + 1 + 4 := by
          unfold pad
          omega
        have hpage : 4 < PGSIZE := by decide
        omega
    · refine wp_ite (fun htrue => ?_) fun _ _ _ heq => by cases heq
      obtain ⟨hge, hend, hmem, hfree⟩ := hr htrue
      rcases hcases with ⟨hdev, _⟩ | hbelow
      · have hkern : KERNBASE ≤ DEVSPACE := by decide
        omega
      · rw [hbuf] at hmem
        refine wp_mono (ih hmem (.push (hp.congr fun a ha _ => ?_) hbelow fun j hj => ?_) hge
          fun arg' harg => hlen arg' (mem_cons_of_mem _ harg)) ?_ fun _ _ _ => trivial
        · exact if_neg (by omega)
        · unfold put
          rw [if_pos (by omega), show below sp arg.length + j - below sp arg.length = j by omega]
        · intro r' s' hr' ptrs' sp' heq
          obtain ⟨m', hm', hp', hsp', hfree'⟩ := hr' ptrs' sp' heq
          rw [append_assoc] at hp'
          exact ⟨m', hm', hp', hsp', hfree'.trans hfree⟩

/-! ### What the new program finds -/

section

variable {d : PageDir} {s : Ram} {m : Nat → Byte} {base sp esp : Nat} {ptrs : List Nat}
  {argv : List (List Byte)}

theorem ustack_length (ptrs : List Nat) (sp : Nat) :
    (ustack ptrs sp).length = 3 + ptrs.length + 1 := by
  unfold ustack
  rw [length_append, length_append]
  rfl

theorem ustack_pointer (h : ptrs[i]? = some p) : (ustack ptrs sp).getD (3 + i) 0 = p := by
  have hi : i < ptrs.length := (List.getElem?_eq_some_iff.mp h).1
  unfold ustack
  rw [getD_eq_getElem?_getD, append_assoc,
    getElem?_append_right (Nat.le_add_right 3 i), getElem?_append_left (by simpa using hi)]
  simp [h]

theorem ustack_ret : (ustack ptrs sp).getD 0 0 = 0xffffffff := rfl

theorem ustack_argc : (ustack ptrs sp).getD 1 0 = ptrs.length := rfl

theorem ustack_vector (hesp : esp + (3 + ptrs.length + 1) * 4 = sp) (hsp : sp < ADDRESSES) :
    (ustack ptrs sp).getD 2 0 = esp + 12 := by
  have hentry : ∀ c, ([0xffffffff, ptrs.length, c] ++ ptrs ++ [0]).getD 2 0 = c := fun _ => rfl
  unfold ustack
  rw [hentry, show sp + ADDRESSES - (ptrs.length + 1) * 4 = esp + 12 + ADDRESSES by omega,
    Nat.add_mod_right, Nat.mod_eq_of_lt (by omega)]

theorem ustack_last : (ustack ptrs sp).getD (3 + ptrs.length) 0 = 0 := by
  unfold ustack
  rw [getD_eq_getElem?_getD, append_assoc, getElem?_append_right (Nat.le_add_right 3 _)]
  simp

/-- The words and the strings in the stack page. -/
theorem PagesHold.decodes (h : PagesHold d
      (put m esp ((ustack ptrs sp).length * 4) ((ustack ptrs sp).flatMap word)) s)
    (hp : Pushed m (base + PGSIZE) ptrs argv sp) (hesp : esp + (3 + ptrs.length + 1) * 4 = sp)
    (hbase : base ≤ esp) (hal : base % PGSIZE = 0) (hbound : base + PGSIZE < KERNBASE)
    (hu : IsUser d base) : Decodes d (base + PGSIZE) esp s argv ptrs := by
  have hlen := hp.length
  have hspace := hp.space
  have hkern : KERNBASE < ADDRESSES := by decide
  have htop : (base + PGSIZE) % 4 = 0 := by
    unfold PGSIZE at *
    omega
  have hsp := hp.aligned htop
  have huser : ∀ a, base ≤ a → a < base + PGSIZE → IsUser d a := by
    intro a hle hlt
    refine isUser_of_page hu ?_
    unfold PGSIZE at *
    omega
  have hcount := ustack_length ptrs sp
  have hwords : ∀ i < 3 + ptrs.length + 1, (ustack ptrs sp).getD i 0 < ADDRESSES →
      Ram.userWord d s (esp + 4 * i) = some ((ustack ptrs sp).getD i 0) := by
    intro i hi hw
    refine h.userWord_put (by omega) (fun a hle hlt => huser a (by omega) (by omega)) hw
  -- the words are below the strings
  have hpushed : Pushed (put m esp ((ustack ptrs sp).length * 4) ((ustack ptrs sp).flatMap word))
      (base + PGSIZE) ptrs argv sp := hp.congr fun a ha _ => if_neg (by omega)
  obtain ⟨hpair, hin⟩ := hpushed.regions htop
  refine ⟨?_, ?_, ?_, fun i p hi => ?_, ?_, ?_, ?_, ?_⟩
  · have hw := hwords 0 (by omega) (by rw [ustack_ret]; decide)
    rw [ustack_ret] at hw
    exact hw
  · have hw := hwords 1 (by omega) (by rw [ustack_argc]; omega)
    rw [ustack_argc, hlen] at hw
    exact hw
  · have hvec := ustack_vector hesp (by omega)
    have hw := hwords 2 (by omega) (by rw [hvec]; omega)
    rw [hvec] at hw
    exact hw
  · have hlt : i < ptrs.length := (List.getElem?_eq_some_iff.mp hi).1
    have hentry : (ustack ptrs sp).getD (3 + i) 0 = p := ustack_pointer hi
    have hpb := hp.pointer_lt p (mem_of_getElem? hi)
    have hw := hwords (3 + i) (by omega) (by rw [hentry]; omega)
    rw [hentry, show esp + 4 * (3 + i) = esp + 12 + 4 * i by omega] at hw
    exact hw
  · have hw := hwords (3 + ptrs.length) (by omega) (by rw [ustack_last]; decide)
    rw [ustack_last, show esp + 4 * (3 + ptrs.length) = esp + 12 + 4 * ptrs.length by omega] at hw
    rw [← hlen]
    exact hw
  · refine hpushed.strings.imp fun p arg hs j hj => ?_
    rw [h.userByte (huser (p + j) (by omega) (by omega)), hs.2.2 j hj]
  · unfold Ram.regions
    rw [← hlen]
    refine pairwise_cons.mpr ⟨fun r hr => Or.inl ?_, pairwise_cons.mpr
      ⟨fun r hr => Or.inl ?_, hpair⟩⟩
    · rcases mem_cons.mp hr with rfl | hr
      · exact le_rfl
      · have hle := (hin r hr).2.1
        omega
    · have hle := (hin r hr).2.1
      omega
  · intro r hr
    unfold Ram.regions at hr
    rw [← hlen] at hr
    rw [Nat.add_sub_cancel]
    rcases mem_cons.mp hr with rfl | hr
    · dsimp only
      omega
    · rcases mem_cons.mp hr with rfl | hr
      · dsimp only
        omega
      · obtain ⟨h₁, h₂, h₃⟩ := hin r hr
        exact ⟨h₁, by omega, h₃⟩

end

/-! ### The rest of `exec` -/

theorem loadLoop_kmem_wp {addr offset fuel : Nat} :
    wp (loadLoop d addr offset sz fuel i f) (fun _ s' => s'.toKmem = s.toKmem) (fun _ _ => True)
      s := by
  induction fuel generalizing s i f with
  | zero => rfl
  | succ fuel ih =>
    unfold loadLoop lift
    refine wp_ite (fun _ => ?_) fun _ => rfl
    rw [wp_bind, wp_zoom]
    refine walkpgdir_find_wp (fun _ => trivial) fun _ => ?_
    generalize f.readi ((offset + i) % ADDRESSES)
      (if sz - i < PGSIZE then sz - i else PGSIZE) = read
    obtain ⟨r, bytes, f'⟩ := read
    refine wp_seq store_kmem_wp fun _ s₁ h₁ => ?_
    refine wp_ite (fun _ => h₁.1) fun _ => ?_
    exact wp_mono ih (fun _ s' h => h.trans h₁.1) fun _ _ _ => trivial

theorem loaduvm_userOk_wp (h : UserOk K d s.toKmem) : wp (loaduvm d addr f offset sz)
      (fun _ s' => UserOk K d s'.toKmem ∧ Within d s.toKmem d s'.toKmem) (fun _ _ => True) s := by
  unfold loaduvm lift
  generalize ADDRESSES / PGSIZE + 1 = fuel
  rw [wp_bind, wp_zoom]
  refine recordCall_wp (wp_ite (fun _ => trivial) fun _ => ?_)
  refine wp_mono loadLoop_kmem_wp (fun r s' hs => ?_) fun _ _ _ => trivial
  rw [hs]
  exact ⟨h.record _, .refl d _⟩

/-- What `allocuvm` returns. -/
theorem allocuvm_result_wp : wp (allocuvm K d oldsz newsz)
      (fun r _ => r.1 = 0 ∨ (r.1 = newsz ∧ newsz < KERNBASE) ∨ (r.1 = oldsz ∧ newsz < oldsz))
      (fun _ _ => True) s := by
  have hloop : ∀ fuel d a s, wp (allocLoop K oldsz newsz fuel d a)
      (fun r _ => r.1 = 0 ∨ r.1 = newsz) (fun _ _ => True) s := by
    intro fuel
    induction fuel with
    | zero => exact fun d a s => Or.inr rfl
    | succ fuel ih =>
      intro d a s
      refine wp_ite (fun _ => ?_) fun _ => Or.inr rfl
      rw [wp_bind]
      refine kalloc_contended_wp (fun _ => ?_) fun mem ps _ => ?_
      · rw [wp_bind]
        exact wp_of_forall (fun _ _ => Or.inl rfl) fun _ _ => trivial
      · unfold lift setPage
        rw [wp_bind, wp_zoom, wp_modify, wp_bind, wp_modify, wp_bind]
        exact wp_of_forall (fun r s' => ih r.2 _ s') fun _ _ => trivial
  unfold allocuvm
  refine wp_ite (fun _ => Or.inl rfl) fun hnew => wp_ite (fun hlt => ?_) fun hold => ?_
  · exact Or.inr (Or.inr ⟨rfl, hlt⟩)
  · refine wp_mono (hloop _ d _ s) (fun r _ hr => ?_) fun _ _ _ => trivial
    exact hr.imp id fun h => Or.inl ⟨h, Nat.lt_of_not_le hnew⟩

theorem loadSegments_userOk_wp (hsz : sz < KERNBASE) (h : UserOk K d s.toKmem) :
    wp (loadSegments K k off d sz f)
      (fun r s' => UserOk K r.2.1 s'.toKmem ∧ Within d s.toKmem r.2.1 s'.toKmem ∧ r.2.2 < KERNBASE)
      (fun _ _ => True) s := by
  induction k generalizing s d off sz f with
  | zero => exact ⟨h, .refl d _, hsz⟩
  | succ k ih =>
    unfold loadSegments
    generalize f.readi off PROGHDRSIZE = read
    obtain ⟨r, bytes, f'⟩ := read
    refine wp_ite (fun _ => ⟨h, .refl d _, hsz⟩) fun _ => ?_
    refine wp_ite (fun _ => ih hsz h) fun _ => ?_
    refine wp_ite (fun _ => ⟨h, .refl d _, hsz⟩) fun _ => ?_
    rw [wp_bind]
    have halloc : wp (allocuvm K d sz (((progHdr bytes).vaddr + (progHdr bytes).memsz) % ADDRESSES))
        (fun r s' => UserOk K r.2 s'.toKmem ∧ Within d s.toKmem r.2 s'.toKmem)
        (fun _ _ => True) s :=
      allocuvm_userOk_wp (fun _ _ => trivial) h fun _ _ _ h' hw => ⟨h', hw⟩
    refine wp_mono (wp_and halloc allocuvm_result_wp) ?_ fun _ _ _ => trivial
    rintro ⟨sz₁, d₁⟩ s₁ ⟨⟨h₁, hw₁⟩, hr⟩
    have hsz₁ : sz₁ < KERNBASE := by
      rcases hr with hr | ⟨hr, hlt⟩ | ⟨hr, _⟩ <;> omega
    refine wp_ite (fun _ => ⟨h₁, hw₁, hsz₁⟩) fun _ => ?_
    rw [wp_bind]
    refine wp_mono (loaduvm_userOk_wp h₁) ?_ fun _ _ _ => trivial
    rintro ⟨ok, f''⟩ s₂ ⟨h₂, hw₂⟩
    cases ok with
    | false => exact ⟨h₂, hw₁.trans hw₂, hsz₁⟩
    | true =>
      refine wp_mono (ih hsz₁ h₂) (fun r s' hr => ?_) fun _ _ _ => trivial
      exact ⟨hr.1, (hw₁.trans hw₂).trans hr.2.1, hr.2.2⟩

/-- `clearpteu` leaves a page that is not a user page, in a page table that is there. -/
theorem clearpteu_guard_wp (h : UserOk K d k) : wp (clearpteu d uva)
      (fun d' k' => k' = k ∧ UserOk K d' k ∧ Within d k d' k ∧
        (d'.tables (PDX uva)).isSome = true ∧ ¬ IsUser d' uva)
      (fun _ _ => True) k := by
  unfold clearpteu
  rw [wp_bind]
  refine walkpgdir_find_wp (fun _ => trivial) fun ht => ?_
  dsimp only
  cases hget : d.getPte uva with
  | none =>
    refine ⟨rfl, h, .refl d k, ht, fun ⟨e, he, _⟩ => ?_⟩
    rw [hget] at he
    cases he
  | some e =>
    refine ⟨rfl, h.clear hget, fun p => ?_, ?_, fun ⟨q, hq, hu⟩ => ?_⟩
    · rw [owned_clearUser hget]
    · rw [PageDir.isSome_tables_setPte]
      exact ht
    · rw [PageDir.getPte_setPte_self ht] at hq
      rw [← Option.some.inj hq] at hu
      cases hu

theorem stackPages_wp (hsz : sz < KERNBASE) (h : UserOk K d s.toKmem) : wp (stackPages K d sz)
      (fun r s' => r.1 ≠ 0 → UserOk K r.2 s'.toKmem ∧ Within d s.toKmem r.2 s'.toKmem ∧
        ∃ base, r.1 = base + PGSIZE ∧ StackPage r.2 base)
      (fun _ _ => True) s := by
  have htop := pgRoundUp_le_kernbase hsz
  have hal := pgRoundUp_aligned sz
  have hmod : (pgRoundUp sz + 2 * PGSIZE) % ADDRESSES = pgRoundUp sz + 2 * PGSIZE := by
    refine Nat.mod_eq_of_lt ?_
    unfold KERNBASE at htop
    unfold PGSIZE ADDRESSES
    omega
  have halloc : wp (allocuvm K d (pgRoundUp sz) (pgRoundUp sz + 2 * PGSIZE))
      (fun r s' => UserOk K r.2 s'.toKmem ∧ Within d s.toKmem r.2 s'.toKmem) (fun _ _ => True) s :=
    allocuvm_userOk_wp (fun _ _ => trivial) h fun _ _ _ h' hw => ⟨h', hw⟩
  unfold stackPages
  dsimp only
  rw [hmod, wp_bind]
  refine wp_mono (wp_and halloc allocuvm_result_wp) ?_ fun _ _ _ => trivial
  rintro ⟨r, d₁⟩ s₁ ⟨⟨h₁, hw₁⟩, hr⟩
  refine wp_ite (fun _ hne => absurd rfl hne) fun hne => ?_
  obtain ⟨hr, hlt⟩ : r = pgRoundUp sz + 2 * PGSIZE ∧ pgRoundUp sz + 2 * PGSIZE < KERNBASE := by
    rcases hr with hr | hr | ⟨_, hr⟩
    · exact absurd hr hne
    · exact hr
    · omega
  rw [hr, Nat.add_sub_cancel]
  unfold lift
  rw [wp_bind, wp_zoom]
  refine wp_mono (clearpteu_guard_wp h₁) ?_ fun _ _ _ => trivial
  rintro d₂ k ⟨rfl, h₂, hw₂, ht, hguard⟩ _
  refine ⟨h₂, hw₁.trans hw₂, pgRoundUp sz + PGSIZE, by dsimp only; omega, ?_⟩
  have hsub : pgRoundUp sz + PGSIZE - PGSIZE = pgRoundUp sz := Nat.add_sub_cancel ..
  refine ⟨next_page_aligned hal, Nat.le_add_left _ _, by omega, ?_, ?_⟩
  · rw [hsub]
    exact ht
  · rw [hsub]
    exact hguard

/-- Some memory that the user pages hold. -/
theorem UserOk.userMem (h : UserOk K d s.toKmem) :
    UserMem K d (fun a => (userByte d s a).getD 0) s := by
  refine ⟨h, fun x e hx hget hu o ho => ?_⟩
  have hpage : (x + o) / PGSIZE = x / PGSIZE := by
    unfold PGSIZE at *
    omega
  have hoff : (x + o) % PGSIZE = o := by
    unfold PGSIZE at *
    omega
  unfold userByte
  rw [PageDir.getPte_of_page hpage, hget, Option.bind_some, if_pos hu, hoff]
  rfl

/-- The arguments are in the stack page at `base`. -/
structure ArgsIn (K : KernelImage) (d : PageDir) (base esp : Nat) (argv : List (List Byte))
    (s : Ram) (ptrs : List Nat) (sp : Nat) (m : Nat → Byte) : Prop where
  mem : UserMem K d (put m esp ((ustack ptrs sp).length * 4) ((ustack ptrs sp).flatMap word)) s
  pushed : Pushed m (base + PGSIZE) ptrs argv sp
  words : esp + (3 + ptrs.length + 1) * 4 = sp
  above : base ≤ esp

theorem buildStack_wp (hsz : sz < KERNBASE) (h : UserOk K d s.toKmem)
    (hargc : args.argv.length ≤ MAXARG - 1) (hlen : ∀ arg ∈ args.argv, arg.length < 0x1000000) :
    wp (buildStack K args d sz)
      (fun r s' => ∀ d' sz' esp, r = (true, d', sz', esp) → ∃ base, sz' = base + PGSIZE ∧
        StackPage d' base ∧ (IsUser d' base → Within d s.toKmem d' s'.toKmem ∧
          ∃ ptrs sp m, ArgsIn K d' base esp args.argv s' ptrs sp m))
      (fun _ _ => True) s := by
  unfold buildStack
  rw [wp_bind]
  refine wp_mono (stackPages_wp hsz h) ?_ fun _ _ _ => trivial
  rintro ⟨sz₁, d₁⟩ s₁ hstack
  refine wp_ite (fun _ d' sz' esp heq => nomatch heq) fun hne => ?_
  obtain ⟨h₁, hw₁, base, rfl, hst⟩ := hstack hne
  have hbound := hst.bound
  have hpos := hst.pos
  have hkern : KERNBASE < ADDRESSES := by decide
  rw [wp_bind]
  by_cases hu : IsUser d₁ base
  · refine wp_mono (pushArgs_pushed_wp hst hu h₁.userMem .nil (Nat.le_add_right _ _) hlen) ?_
      fun _ _ _ => trivial
    intro r s₂ hr
    cases r with
    | none => exact fun d' sz' esp heq => nomatch heq
    | some r =>
      obtain ⟨ptrs, sp⟩ := r
      obtain ⟨m, hm, hp, hsp, hfree⟩ := hr ptrs sp rfl
      rw [nil_append] at hp
      have hspace := hp.space
      have hlength := hp.length
      have hmax : ptrs.length ≤ 31 := by
        rw [hlength]
        exact hargc
      have hesp : (sp + ADDRESSES - (3 + ptrs.length + 1) * 4) % ADDRESSES =
          sp - (3 + ptrs.length + 1) * 4 := by
        have hpage : (3 + ptrs.length + 1) * 4 ≤ PGSIZE := by
          unfold PGSIZE
          omega
        rw [show sp + ADDRESSES - (3 + ptrs.length + 1) * 4 =
          sp - (3 + ptrs.length + 1) * 4 + ADDRESSES by omega, Nat.add_mod_right,
          Nat.mod_eq_of_lt (by omega)]
      have hbuf := length_ustack ptrs sp
      have hpage : (3 + ptrs.length + 1) * 4 < PGSIZE := by
        unfold PGSIZE
        omega
      dsimp only
      rw [hesp, wp_bind]
      refine wp_mono (copyout_stack_wp hst hu hm (by rw [hbuf]; omega) (Or.inr ?_)) ?_
        fun _ _ _ => trivial
      · rw [hbuf]
        omega
      · intro ok s₃ hok d' sz' esp heq
        obtain ⟨rfl, rfl, rfl, rfl⟩ : ok = true ∧ d₁ = d' ∧ base + PGSIZE = sz' ∧
            sp - (3 + ptrs.length + 1) * 4 = esp := by simpa using heq
        obtain ⟨hge, _, hmem, hfree'⟩ := hok rfl
        refine ⟨base, rfl, hst, fun _ => ⟨fun p => ?_, ptrs, sp, m, ?_, hp, by omega, hge⟩⟩
        · rw [hfree', hfree]
          exact hw₁ p
        · rw [hbuf, ← ustack_length ptrs sp] at hmem
          rw [← ustack_length ptrs sp]
          exact hmem
  · refine wp_of_forall (fun r s₂ => ?_) fun _ _ => trivial
    cases r with
    | none => exact fun d' sz' esp heq => nomatch heq
    | some r =>
      rw [wp_bind]
      refine wp_of_forall (fun ok s₃ d' sz' esp heq => ?_) fun _ _ => trivial
      simp only [Prod.mk.injEq] at heq
      obtain ⟨_, rfl, rfl, _⟩ := heq
      exact ⟨base, rfl, hst, fun hu' => absurd hu' hu⟩

/-! ### The old directory -/

theorem freeTables_kept_wp :
    wp (freeTables K d is) (fun _ s' => Kept s s') (fun _ _ => True) s := by
  induction is generalizing s with
  | nil => exact .refl s
  | cons i is ih =>
    unfold freeTables
    cases d.tables i with
    | none => exact ih
    | some t =>
      rw [wp_bind]
      refine kfree_kept_wp (fun _ _ => trivial) fun s₁ h₁ => ?_
      exact wp_mono ih (fun _ s' h => h₁.trans h) fun _ _ _ => trivial

theorem freevm_kept_wp :
    wp (freevm K d) (fun _ s' => Kept s s' ∧ Moves s.toKmem (owned d) s'.toKmem fun _ => 0)
      (fun _ _ => True) s := by
  have hkept : wp (freevm K d) (fun _ s' => Kept s s') (fun _ _ => True) s := by
    unfold freevm
    generalize List.range NPDENTRIES = is
    rw [wp_bind]
    refine deallocuvm_kept_wp (fun _ _ => trivial) fun r s₁ h₁ => ?_
    refine wp_seq freeTables_kept_wp fun _ s₂ h₂ => ?_
    exact kfree_kept_wp (fun _ _ => trivial) fun s₃ h₃ => (h₁.trans h₂).trans h₃
  have hmoves : wp (Xv6Kernel.freevm K d)
      (fun _ k => Moves s.toKmem (owned d) k fun _ => 0) (fun _ _ => True) s.toKmem :=
    freevm_wp (fun _ _ => trivial) fun _ h => h
  have hview := (freevm_refines (q := s.refusals) K d).wp_view rfl hmoves
  exact wp_mono (wp_and hkept hview) (fun _ s' h => ⟨h.1, h.2.1⟩) fun _ _ _ => trivial

/-- The new pages are not among those of the old directory. -/
theorem ArgsIn.kept (h : ArgsIn K d base esp argv s ptrs sp m)
    (hold : ∀ p, 0 < owned d p → owned old p = 0) (hkept : Kept s s')
    (hmoves : Moves s.toKmem (owned old) s'.toKmem fun _ => 0) :
    PagesHold d (put m esp ((ustack ptrs sp).length * 4) ((ustack ptrs sp).flatMap word)) s' := by
  intro x e hx hget hu o ho
  have hpos := owned_frame_pos (h.mem.ok.user_lt ⟨e, hget, hu⟩) hget
  have hfree : e.pa ∉ s'.free := by
    intro hmem
    have hcount := hmoves.count e.pa
    have hexcl := h.mem.ok.sound.excl e.pa
    have hin := count_pos_iff.mpr hmem
    have hzero := hold e.pa hpos
    omega
  rw [hkept.bytes e.pa hfree]
  exact h.mem.bytes x e hx hget hu o ho

/-- The arguments of the new program can be read from its stack, in the stack page. -/
structure ArgStack (img : NewImage) (s : Ram) (argv : List (List Byte)) : Prop where
  fits : argSpace argv ≤ PGSIZE
  decodes : ∃ ptrs, Decodes img.pgdir img.sz img.esp s argv ptrs

/-- What can be read is in a user page. -/
theorem isUser_of_userWord (h : userWord d s a = some w) : IsUser d a := by
  obtain ⟨b, hb, _⟩ := Option.bind_eq_some_iff.mp h
  obtain ⟨e, he, hu⟩ := Option.bind_eq_some_iff.mp hb
  refine ⟨e, he, ?_⟩
  by_contra hno
  rw [if_neg hno] at hu
  cases hu

theorem exec_args_wp (hold : Sound K old s.toKmem)
    (hargc : args.argv.length ≤ MAXARG - 1) (hlen : ∀ arg ∈ args.argv, arg.length < 0x1000000) :
    wp (exec K args f old)
      (fun r s' => ∀ img, r = some img → PGSIZE ≤ img.sz ∧ img.sz % PGSIZE = 0 ∧
        (IsUser img.pgdir (img.sz - PGSIZE) → ArgStack img s' args.argv))
      (fun _ _ => True) s := by
  have hnodup : s.free.Nodup := nodup_iff_count_le_one.mpr hold.free_nodup
  have hbad : ∀ d s₁, wp (execBad K d) (fun r s' => ∀ img, r = some img → PGSIZE ≤ img.sz ∧
      img.sz % PGSIZE = 0 ∧ (IsUser img.pgdir (img.sz - PGSIZE) → ArgStack img s' args.argv))
      (fun _ _ => True) s₁ := by
    intro d s₁
    unfold execBad
    rw [wp_bind]
    exact wp_of_forall (fun _ _ img heq => nomatch heq) fun _ _ => trivial
  unfold exec lift
  rw [wp_bind, wp_zoom, wp_modify]
  refine wp_ite (fun _ img heq => nomatch heq) fun _ => ?_
  generalize f.readi 0 ELFHDRSIZE = read
  obtain ⟨r, bytes, f'⟩ := read
  refine wp_ite (fun _ img heq => nomatch heq) fun _ => ?_
  refine wp_ite (fun _ img heq => nomatch heq) fun _ => ?_
  rw [wp_bind, wp_zoom]
  refine setupkvm_fresh_wp (fun _ _ => trivial) (fun _ img heq => nomatch heq) fun d₀ k hfresh => ?_
  rw [wp_bind]
  have hstart : UserOk K d₀ k := .fresh hfresh hnodup hold.free
  refine wp_mono (loadSegments_userOk_wp (s := { s with toKmem := k }) (by decide) hstart) ?_
    fun _ _ _ => trivial
  rintro ⟨ok, d₁, sz⟩ s₁ ⟨h₁, hw₁, hsz⟩
  cases ok with
  | false => exact hbad d₁ s₁
  | true =>
    unfold finishExec
    rw [wp_bind]
    refine wp_mono (buildStack_wp hsz h₁ hargc hlen) ?_ fun _ _ _ => trivial
    rintro ⟨ok, d₂, sz₂, esp⟩ s₂ hb
    cases ok with
    | false => exact hbad d₂ s₂
    | true =>
      obtain ⟨base, rfl, hst, hargs⟩ := hb d₂ sz₂ esp rfl
      rw [wp_bind]
      refine wp_mono freevm_kept_wp ?_ fun _ _ _ => trivial
      rintro _ s₃ ⟨hkept, hmoves⟩ img heq
      cases heq
      refine ⟨Nat.le_add_left _ _, next_page_aligned hst.aligned, fun hu => ?_⟩
      rw [Nat.add_sub_cancel] at hu
      obtain ⟨hw₂, ptrs, sp, m, hin⟩ := hargs hu
      have happart : ∀ p, 0 < owned d₂ p → owned old p = 0 := by
        intro p hp
        have hwithin := hw₁.trans hw₂ p
        have hcount := hfresh.moves.count p
        have hexcl := hold.excl p
        dsimp only at hwithin hcount
        omega
      have hhold := hin.kept happart hkept hmoves
      refine ⟨?_, ptrs, hhold.decodes hin.pushed hin.words hin.above hst.aligned hst.bound hu⟩
      have hspace := hin.pushed.space
      have hlength := hin.pushed.length
      have hwords := hin.words
      have habove := hin.above
      unfold argSpace
      omega

section

variable {args : ExecArgs} {s : Ram}

/-- `exec` up to the stack. -/
theorem exec_finish_wp (hperm : args.permitted = true)
    (hread : f.readi 0 ELFHDRSIZE = ((ELFHDRSIZE : Int), hdr, f))
    (helf : elfHdr (hdr ++ args.garbage.drop hdr.length) = elf) (hmagic : elf.magic = ELF_MAGIC)
    (hsetup : setupkvm K { s.toKmem with user := [], calls := [] } = .ok (some d₀) k)
    (hload : loadSegments K elf.phnum elf.phoff d₀ 0 f { s with toKmem := k } =
      .ok (true, d₁, sz) s₁) (hfinish : wp (finishExec K args elf.entry old d₁ sz) P E s₁) :
    wp (exec K args f old) P E s := by
  have hpassed : ¬ ¬ headerPassed ELFHDRSIZE := by decide
  unfold exec lift
  rw [wp_bind, wp_zoom, wp_modify, if_neg (by rw [hperm]; decide), hread]
  dsimp only
  rw [if_neg hpassed, helf, if_neg (not_not.mpr hmagic), wp_bind, wp_zoom]
  refine wp_of_ok hsetup ?_
  rw [wp_bind]
  exact wp_of_ok hload hfinish

/-- A copy into user pages succeeds. -/
theorem copyout_users_wp (h : UserOk K d s.toKmem) (hva : va < ADDRESSES)
    (hu : ∀ i < buf.length, IsUser d ((va + i) % ADDRESSES)) :
    wp (copyout word0 d va buf) (fun ok _ => ok = true) (fun _ _ => False) s := by
  have ht : TablesThere d va buf.length := by
    intro i hi _
    obtain ⟨e, hget, _⟩ := hu i hi
    exact tables_of_getPte (by rw [hget]; rfl)
  refine wp_mono (copyout_copied_wp h hva ht) ?_ fun _ _ hf => hf
  rintro ok s' ⟨n, calls, hc⟩
  exact (hc.result h).mpr hu

/-- `exec` without arguments, from the stack pages on: the 16 bytes of `ustack` are copied. -/
theorem finishExec_wp (hargv : args.argv = [])
    (hstack : stackPages K d₁ sz s₁ = .ok (top, d₂) s₂) (htop : 16 ≤ top) (hlt : top < ADDRESSES)
    (hcopy : wp (copyout args.word0 d₂ (top - 16) ((ustack [] top).flatMap word))
      (fun ok _ => ok = true) (fun _ _ => False) s₂) (hold : GoodDir K old)
    (hok : ∀ s', P (some ⟨d₂, top, entry, top - 16⟩) s') :
    wp (finishExec K args entry old d₁ sz) P E s₁ := by
  have hesp : (top + ADDRESSES - (3 + 0 + 1) * 4) % ADDRESSES = top - 16 := by
    rw [show top + ADDRESSES - (3 + 0 + 1) * 4 = top - 16 + ADDRESSES by omega,
      Nat.add_mod_right, Nat.mod_eq_of_lt (by omega)]
  unfold finishExec buildStack
  rw [wp_bind, wp_bind]
  refine wp_of_ok hstack ?_
  dsimp only
  rw [if_neg (by omega), wp_bind, hargv]
  unfold pushArgs
  rw [wp_pure]
  dsimp only [length_nil]
  rw [hesp, wp_bind]
  refine wp_mono hcopy (fun ok s₃ htrue => ?_) fun _ _ hf => hf.elim
  rw [htrue, wp_pure]
  rw [wp_bind]
  have hfree : wp (Xv6Kernel.freevm K old) (fun _ _ => True) (fun _ _ => False) s₃.toKmem :=
    freevm_good_wp hold fun _ _ => trivial
  refine wp_mono ((freevm_refines (q := s₃.refusals) K old).wp_view rfl hfree)
    (fun _ s' _ => hok s') fun _ _ hf => hf.elim

end

/-- A file with one segment at address 0 that has no file part. -/
def zeroProgram (b₀ b₁ b₂ : Byte) : List Byte :=
  oneSegmentHdr ++ [1, 0, 0, 0] ++ List.replicate 16 0 ++ [b₀, b₁, b₂, 0] ++ List.replicate 8 0

theorem rangesPte_isSome (h : e.isSome = true ∨ ∃ k ∈ ks, k.virt ≤ x ∧ x < k.virt + k.size) :
    (rangesPte ks x e).isSome = true := by
  induction ks generalizing e with
  | nil =>
    rcases h with h | ⟨k, hk, _⟩
    · exact h
    · exact absurd hk not_mem_nil
  | cons k ks ih =>
    unfold rangesPte
    rw [foldl_cons]
    refine ih ?_
    by_cases hin : k.virt ≤ x ∧ x < k.virt + k.size
    · rw [if_pos hin]
      exact Or.inl rfl
    · rw [if_neg hin]
      rcases h with h | ⟨k', hk', hx⟩
      · exact Or.inl h
      · rcases mem_cons.mp hk' with rfl | hk'
        · exact absurd hx hin
        · exact Or.inr ⟨k', hk', hx⟩

/-- The page tables of an image are all there. -/
theorem missing_imageTables (h : UserOk K d k)
    (hu : ∀ i, i * SPAN < bound → (d.getPte (i * SPAN)).isSome = true) :
    missing (imageTables K bound) d = ∅ := by
  have hpdx : ∀ i x, i * SPAN ≤ x → x < (i + 1) * SPAN → PDX x = i := by
    intro i x hle hlt
    exact Nat.div_eq_of_lt_le hle hlt
  refine Finset.filter_false_of_mem fun i hi => ?_
  obtain ⟨_, hor⟩ := Finset.mem_filter.mp hi
  have hsome : (d.tables i).isSome = true := by
    rcases hor with hlt | ⟨r, hr, hlo, hhi⟩
    · have htable := tables_of_getPte (hu i hlt)
      rw [hpdx i _ le_rfl (by rw [Nat.succ_mul]; exact Nat.lt_add_of_pos_right (by decide))]
        at htable
      exact htable
    · -- a page of the range that is in the table
      have hkmap := kmap_ok K r hr
      have hal := hkmap.aligned
      have hspan : i * SPAN % PGSIZE = 0 := by
        rw [show SPAN = NPTENTRIES * PGSIZE from Nat.mul_comm _ _, ← Nat.mul_assoc]
        exact Nat.mul_mod_left _ _
      have hpos : 0 < r.size := hkmap.pos
      have hmax : max r.virt (i * SPAN) % PGSIZE = 0 := by
        rcases Nat.le_total r.virt (i * SPAN) with hle | hle
        · rw [Nat.max_eq_right hle]
          exact hspan
        · rw [Nat.max_eq_left hle]
          exact hal
      have hnext : i * SPAN < (i + 1) * SPAN := by
        rw [Nat.succ_mul]
        exact Nat.lt_add_of_pos_right (by decide)
      have hkernel : (kernelPte K (max r.virt (i * SPAN))).isSome = true :=
        rangesPte_isSome (Or.inr ⟨r, hr, Nat.le_max_left _ _, Nat.max_lt.mpr ⟨by omega, hhi⟩⟩)
      have htable := tables_of_getPte (h.mapped _ hmax hkernel)
      rw [hpdx i _ (Nat.le_max_right _ _) (Nat.max_lt.mpr ⟨hlo, hnext⟩)] at htable
      exact htable
  simp [Option.isSome_iff_ne_none.mp hsome]

theorem mapPage_there_wp (ha : a < KERNBASE) (halign : a % PGSIZE = 0)
    (ht : (d.tables (PDX a)).isSome = true) (hnone : d.getPte a = none)
    (hok : P (true, d.setPte a (some ⟨pa, w, u⟩)) k) : wp (mappages d a PGSIZE pa w u) P E k := by
  rw [mappages_page ha halign]
  unfold mapLoop walkpgdir
  rw [wp_bind, if_pos ht, wp_pure]
  dsimp only
  rw [if_neg (by rw [hnone]; decide)]
  exact hok

theorem mapPage_refused_wp (ha : a < KERNBASE) (halign : a % PGSIZE = 0)
    (ht : d.tables (PDX a) = none) (hfree : k.free = [])
    (hfail : P (false, d) { k with short := true }) : wp (mappages d a PGSIZE pa w u) P E k := by
  rw [mappages_page ha halign]
  unfold mapLoop walkpgdir
  rw [wp_bind, if_neg (by rw [ht]; decide), if_pos rfl, wp_bind]
  refine kalloc_pop_wp (fun _ => hfail) fun p ps hp => ?_
  rw [hfree] at hp
  cases hp

/-- Two frames, and no page for the second page table. -/
theorem allocuvm_lost_wp (ha : a % PGSIZE = 0)
    (hend : a + 2 * PGSIZE < KERNBASE) (ht : (d.tables (PDX a)).isSome = true)
    (hno : d.tables (PDX (a + PGSIZE)) = none) (hnone : d.getPte a = none)
    (hfree : k.free = [p, q]) :
    wp (Xv6Kernel.allocuvm K d a (a + 2 * PGSIZE))
      (fun r k' => r = (a + 2 * PGSIZE, d.setPte a (some ⟨p, true, true⟩)) ∧
        k'.user = q :: p :: k.user) E k := by
  have hpos := page_pos
  have hfuel : ADDRESSES / PGSIZE = 0xFFFFD + 3 := by decide
  have hround : pgRoundUp a = a := pgRoundUp_of_aligned ha (by omega)
  unfold Xv6Kernel.allocuvm
  rw [if_neg (by omega), if_neg (by omega), hfuel, hround]
  generalize 0xFFFFD = fuel
  unfold Xv6Kernel.allocLoop
  rw [if_pos (by omega), wp_bind]
  refine kalloc_pop_wp (fun hnil => ?_) fun p' ps hp => ?_
  · rw [hfree] at hnil
    cases hnil
  · rw [hfree] at hp
    obtain ⟨rfl, rfl⟩ := List.cons.inj hp
    rw [wp_bind, wp_modify, wp_bind]
    refine mapPage_there_wp (by omega) ha ht hnone ?_
    dsimp only
    unfold Xv6Kernel.allocLoop
    rw [if_pos (by omega), wp_bind]
    refine kalloc_pop_wp (fun hnil => by cases hnil) fun q' qs hq => ?_
    obtain ⟨rfl, rfl⟩ := List.cons.inj hq
    rw [wp_bind, wp_modify, wp_bind]
    have hno' : (d.setPte a (some ⟨p, true, true⟩)).tables (PDX (a + PGSIZE)) = none := by
      rw [← Option.not_isSome_iff_eq_none, PageDir.isSome_tables_setPte, hno]
      decide
    refine mapPage_refused_wp (by omega) (next_page_aligned ha) hno' rfl ?_
    dsimp only
    unfold Xv6Kernel.allocLoop
    rw [if_neg (by omega)]
    exact ⟨rfl, rfl⟩

/-- `copyout` through a null pointer, to the frame that the word at address 0 names. -/
theorem copyout_null_wp (hpos : 0 < buf.length)
    (hfit : va + buf.length ≤ pgRoundDown va + PGSIZE) (ht : d.tables (PDX (pgRoundDown va)) = none)
    (hword : userFrame word0 = some q) (hq : q ∈ s.user) :
    wp (copyout word0 d va buf) (fun ok _ => ok = true) (fun _ _ => False) s := by
  have hdown : pgRoundDown va ≤ va := Nat.div_mul_le_self va PGSIZE
  have hka : uva2ka word0 d (pgRoundDown va) = some q := by
    unfold uva2ka
    rw [if_neg (by rw [ht]; decide)]
    exact hword
  have hchunk : copyChunk va buf.length = buf.length := by
    unfold copyChunk
    omega
  unfold copyout lift
  rw [wp_bind, wp_zoom]
  refine recordCall_wp ?_
  unfold copyoutLoop
  rw [if_pos hpos, hka]
  rw [wp_bind, hchunk, drop_length]
  refine store_wp hq ?_
  cases hlen : buf.length with
  | zero => exact absurd hlen (by omega)
  | succ n => exact rfl

/-- `exec` without arguments, when the stack page has no page table and the word at address 0 is an
    entry for the page `q`. -/
theorem exec_null_wp
    (hread : f.readi 0 ELFHDRSIZE = ((ELFHDRSIZE : Int), hdr, f)) (helf : elfHdr hdr = elf)
    (hmagic : elf.magic = ELF_MAGIC)
    (hsetup : setupkvm K { s.toKmem with user := [], calls := [] } = .ok (some d₀) k)
    (hload : loadSegments K elf.phnum elf.phoff d₀ 0 f { s with toKmem := k } =
      .ok (true, d₁, sz) s₁) (hpages : stackPages K d₁ sz s₁ = .ok (top, d₂) s₂) (htop : 16 ≤ top)
    (hlt : top < ADDRESSES) (hfit : top ≤ pgRoundDown (top - 16) + PGSIZE)
    (hno : d₂.tables (PDX (pgRoundDown (top - 16))) = none) (hbelow : q < PHYSTOP)
    (hq : q ∈ s₂.user) (hold : GoodDir K old) :
    wp (exec K ⟨true, [], [], some ⟨q, true, true⟩⟩ f old)
      (fun r _ => r = some ⟨d₂, top, elf.entry, top - 16⟩) (fun _ _ => False) s := by
  have hword : userFrame (some ⟨q, true, true⟩) = some q := by
    have hne : (q + KERNBASE) % ADDRESSES ≠ 0 := by
      unfold PHYSTOP at hbelow
      unfold KERNBASE ADDRESSES
      omega
    unfold userFrame
    exact if_pos ⟨rfl, hne⟩
  have hlen : ((ustack [] top).flatMap word).length = 16 := length_ustack [] top
  refine exec_finish_wp rfl hread ?_ hmagic hsetup hload ?_
  · rw [drop_nil, append_nil]
    exact helf
  refine finishExec_wp rfl hpages htop hlt ?_ hold fun _ => rfl
  exact copyout_null_wp (by omega) (by omega) hno hword hq

/-- The first `n` pages from `0x400000` on. -/
def freePages (n : Nat) : List Nat := (List.range n).map fun i => 0x400000 + i * PGSIZE

theorem freePages_nodup (n : Nat) : (0x200000 :: freePages n).Nodup := by
  refine nodup_cons.mpr ⟨fun hmem => ?_, nodup_range.map fun i j hij => ?_⟩
  · obtain ⟨i, _, hi⟩ := mem_map.mp hmem
    omega
  · unfold PGSIZE at hij
    omega

theorem freePages_valid (hn : n ≤ 0x1000) : ∀ p ∈ freePages n, ValidPage smallKernel p := by
  intro p hp
  obtain ⟨i, hi, rfl⟩ := mem_map.mp hp
  rw [mem_range] at hi
  refine ⟨?_, ?_, ?_⟩
  · unfold PGSIZE
    omega
  · change 0x110000 ≤ _
    omega
  · unfold PHYSTOP PGSIZE
    omega

/-- A program that ends one page below a page table's span is loaded, and two frames are left. -/
theorem zeroProgram_loaded : ∃ (s : Ram) (d₀ : PageDir) (k : Kmem) (d₁ : PageDir) (s₁ : Ram)
    (m : Nat → Byte) (p q : Nat), Sound smallKernel emptyDir s.toKmem ∧
    setupkvm smallKernel { s.toKmem with user := [], calls := [] } = .ok (some d₀) k ∧
    loadSegments smallKernel 1 52 d₀ 0 (.disk (zeroProgram 0 0xF0 0x3F)) { s with toKmem := k } =
      .ok (true, d₁, SPAN - PGSIZE) s₁ ∧
    Segments smallKernel d₁ (SPAN - PGSIZE) m s₁ ∧ s₁.free = [p, q] := by
  obtain ⟨T, hT⟩ : ∃ T, imageTables smallKernel SPAN = T := ⟨_, rfl⟩
  have hcard : T.card ≤ NPDENTRIES := by
    rw [← hT]
    exact (Finset.card_filter_le _ _).trans (Finset.card_range _).le
  have hvalid : ∀ p ∈ freePages (T.card + 1 + 1025), ValidPage smallKernel p :=
    freePages_valid (by unfold NPDENTRIES at hcard; omega)
  have hnodup := freePages_nodup (T.card + 1 + 1025)
  have hlength : (freePages (T.card + 1 + 1025)).length = T.card + 1 + 1025 := by
    unfold freePages
    rw [length_map, length_range]
  generalize freePages (T.card + 1 + 1025) = free at hvalid hnodup hlength
  have hsound : Sound smallKernel emptyDir (startRam free).toKmem := emptyDir_sound hnodup hvalid
  have hhdr : headers (zeroProgram 0 0xF0 0x3F) 1 52 = [⟨1, 0, 0, 0, SPAN - PGSIZE⟩] := rfl
  have hlen : (zeroProgram 0 0xF0 0x3F).length < ADDRESSES := by decide
  have hfits : 52 + 1 * PROGHDRSIZE ≤ (zeroProgram 0 0xF0 0x3F).length := by decide
  have hend : [⟨1, 0, 0, 0, SPAN - PGSIZE⟩].foldl extend 0 = SPAN - PGSIZE := by decide
  have hround : pgRoundUp (SPAN - PGSIZE) = SPAN - PGSIZE := by decide
  have hspan : SPAN = 1024 * PGSIZE := by decide
  have hzero : pgRoundUp 0 = 0 := by decide
  have hTk : KernelTables smallKernel T := hT ▸ kernelTables_imageTables smallKernel SPAN
  have hTu : ∀ x < [⟨1, 0, 0, 0, SPAN - PGSIZE⟩].foldl extend 0, PDX x ∈ T := by
    intro x hx
    rw [hend] at hx
    rw [← hT]
    exact mem_imageTables (by omega) (hx.trans (by decide))
  obtain ⟨d₀, k, hsetup, hfresh, hlow, hspare⟩ :=
    setupkvm_spare (s := { (startRam free).toKmem with user := [], calls := [] }) hvalid rfl rfl
      hTk hlength
  have hstart : Segments smallKernel d₀ 0 (fun _ => 0) { startRam free with toKmem := k } :=
    .start hfresh hlow hnodup.of_cons hvalid rfl rfl
  obtain ⟨_, s₁, hload, d₁, n₁, rfl, hseg, hn, hspare₁⟩ := exists_ok_of_wp
    (loadSegments_segments_wp hstart hlen hfits (fun ph hph _ => by
        rw [hhdr, mem_singleton] at hph
        rw [hph]
        exact ⟨by decide, by decide, by decide, by decide, by decide⟩)
      (by rw [hhdr]; exact hTu) (by rw [hhdr, hend]; decide)
      (by rw [hhdr, hend]; decide) rfl hspare)
  rw [hhdr, hend] at hload hseg hn
  have htwo : n₁ = 2 := by
    rw [hround, hspan, hzero] at hn
    unfold PGSIZE at hn
    omega
  -- all page tables are there
  have hnone : missing T d₁ = ∅ := by
    rw [← hT]
    refine missing_imageTables hseg.mem.ok fun i hi => (hseg.pages _ (hi.trans (by decide))).mpr ?_
    have hfirst : i = 0 := by
      by_contra hne
      have hle := Nat.mul_le_mul_right SPAN (Nat.one_le_iff_ne_zero.mpr hne)
      omega
    rw [hround, hfirst, Nat.zero_mul]
    decide
  unfold Spare at hspare₁
  rw [hnone, Finset.card_empty, Nat.zero_add, htwo] at hspare₁
  obtain ⟨p, q, hfree⟩ := length_eq_two.mp hspare₁
  exact ⟨startRam free, d₀, k, d₁, s₁, _, p, q, hsound, hsetup, hload, hseg, hfree⟩

/-- Its stack page is in the next span, and there is no page for the page table. -/
theorem stackPages_lost
    (hseg : Segments smallKernel d₁ (SPAN - PGSIZE) m s₁) (hfree : s₁.free = [p, q]) :
    ∃ d₂ s₂, stackPages smallKernel d₁ (SPAN - PGSIZE) s₁ = .ok (SPAN + PGSIZE, d₂) s₂ ∧
      d₂.tables (PDX SPAN) = none ∧ q ∈ s₂.user := by
  have hround : pgRoundUp (SPAN - PGSIZE) = SPAN - PGSIZE := by decide
  have hpos : PGSIZE ≤ SPAN := by decide
  have hguard : d₁.getPte (SPAN - PGSIZE) = none := hseg.clear hround.le (by decide)
  have hnext : SPAN - PGSIZE + PGSIZE = SPAN := by omega
  have htop : SPAN - PGSIZE + 2 * PGSIZE = SPAN + PGSIZE := by omega
  have hone : d₁.tables (PDX SPAN) = none := hseg.tables _ (by decide) (by rw [hround]; decide)
  have htable : (d₁.tables (PDX (SPAN - PGSIZE))).isSome = true := by
    have hzero : PDX (SPAN - PGSIZE) = PDX 0 := by decide
    rw [hzero]
    exact tables_of_getPte ((hseg.pages 0 (by decide)).mpr (by rw [hround]; decide))
  have hlost : wp (Xv6Kernel.allocuvm smallKernel d₁ (SPAN - PGSIZE) (SPAN - PGSIZE + 2 * PGSIZE))
      (fun r k' => r = (SPAN - PGSIZE + 2 * PGSIZE,
        d₁.setPte (SPAN - PGSIZE) (some ⟨p, true, true⟩)) ∧ k'.user = q :: p :: s₁.user)
      (fun _ _ => False) s₁.toKmem :=
    allocuvm_lost_wp (by decide) (by decide) htable (by rw [hnext]; exact hone) hguard hfree
  have hmod : (SPAN - PGSIZE + 2 * PGSIZE) % ADDRESSES = SPAN - PGSIZE + 2 * PGSIZE := by decide
  have hstack : wp (stackPages smallKernel d₁ (SPAN - PGSIZE))
      (fun r s₂ => ∃ d₂, r = (SPAN + PGSIZE, d₂) ∧ d₂.tables (PDX SPAN) = none ∧ q ∈ s₂.user)
      (fun _ _ => False) s₁ := by
    unfold stackPages
    dsimp only
    rw [hround, hmod, wp_bind]
    refine wp_mono ((allocuvm_refines smallKernel _ _ _).wp_view hseg.refusals hlost) ?_
      fun _ _ hf => hf
    rintro r s₂ ⟨⟨rfl, huser⟩, _⟩
    rw [if_neg (Nat.ne_of_gt (Nat.add_pos_right _ (by decide))), Nat.add_sub_cancel]
    unfold lift
    rw [wp_bind, wp_zoom]
    refine clearpteu_found_wp (PageDir.getPte_setPte_self htable) ⟨_, by rw [htop], ?_, ?_⟩
    · rw [← Option.not_isSome_iff_eq_none, PageDir.isSome_tables_setPte,
        PageDir.isSome_tables_setPte, hone]
      decide
    · rw [show s₂.user = q :: p :: s₁.user from huser]
      exact mem_cons_self
  obtain ⟨_, s₂, hpages, d₂, rfl, hrest⟩ := exists_ok_of_wp hstack
  exact ⟨d₂, s₂, hpages, hrest⟩

end Ram

end Xv6Kernel
