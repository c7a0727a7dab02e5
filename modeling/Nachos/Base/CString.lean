import Nachos.Base.CInt
import Mathlib.Data.List.Basic
import Mathlib.Data.List.GetD

namespace Nachos.Base

/-!
# Base — buffers and C strings

A `char *` is a function from offsets to bytes. `Buffer.copy` is `bcopy` into the middle of a
buffer and `Buffer.intAt` the `int` found at an offset; `strncmp` and `strncpy` are the bounded
string functions of the C library.

What a bounded comparison looks at is `cstr n a`, the bytes of `a` up to the first NUL among
the first `n`: `strncmp` finds two strings equal exactly if these lists are equal, and
`strncpy` copies exactly this list. A string that is known to end is a `CStr`, the bytes in front
of its NUL, and `strcmp` compares two of them; `strcpy` writes one of any length, and `strcmpAt`
compares one with what a `char *` points to.
-/

/-- The bytes a `char *` points to. -/
abbrev Buffer := ℕ → UInt8

/-- `bcopy(src, &dst[start], n)`. -/
def Buffer.copy (dst : Buffer) (start n : ℕ) (src : Buffer) : Buffer :=
  fun i => if start ≤ i ∧ i < start + n then src (i - start) else dst i

/-- Inside the range that is written, the source is found. -/
theorem Buffer.copy_of_mem (dst : Buffer) {start n i : ℕ} (src : Buffer) (hlo : start ≤ i)
    (hhi : i < start + n) : dst.copy start n src i = src (i - start) :=
  if_pos ⟨hlo, hhi⟩

/-- Outside of it, nothing changes. -/
theorem Buffer.copy_of_notMem (dst : Buffer) {start n i : ℕ} (src : Buffer)
    (h : i < start ∨ start + n ≤ i) : dst.copy start n src i = dst i :=
  if_neg (by omega)

/-- The `int` in the four bytes at an offset. -/
def Buffer.intAt (b : Buffer) (o : ℕ) : Int := intOfBytes fun j => b (o + j)

theorem Buffer.intAt_mem (b : Buffer) (o : ℕ) : minInt ≤ b.intAt o ∧ b.intAt o ≤ maxInt :=
  intOfBytes_mem _

/-- An `int` is read back from where it is stored. -/
theorem Buffer.intAt_eq {b : Buffer} {o : ℕ} {x : Int} (hb : ∀ j < 4, b (o + j) = intByte x j)
    (hlo : minInt ≤ x) (hhi : x ≤ maxInt) : b.intAt o = x := by
  rw [intAt, intOfBytes_congr hb, intOfBytes_intByte, wrap32_eq_self hlo hhi]

/-- `strncmp(a, b, n)`: compare up to the first difference, the end of both strings or `n`
bytes. -/
def strncmp (a b : Buffer) : ℕ → Int
  | 0 => 0
  | n + 1 =>
    if a 0 ≠ b 0 then (a 0).toNat - (b 0).toNat
    else if a 0 = 0 then 0
    else strncmp (fun i => a (i + 1)) (fun i => b (i + 1)) n

/-- The bytes of `a` up to the first NUL, at most `n` of them. -/
def cstr (n : ℕ) (a : Buffer) : List UInt8 := ((List.range n).map a).takeWhile (· ≠ 0)

/-- `strncpy(dst, src, n)`: the bytes up to the first NUL, and NULs up to `n`. -/
def strncpy (dst src : Buffer) (n : ℕ) : Buffer :=
  dst.copy 0 n fun i => (cstr n src).getD i 0

/-- `cstr` reads one byte after the other. -/
theorem cstr_succ (n : ℕ) (a : Buffer) :
    cstr (n + 1) a = if a 0 = 0 then [] else a 0 :: cstr n fun i => a (i + 1) := by
  unfold cstr
  rw [List.range_succ_eq_map, List.map_cons, List.takeWhile_cons, List.map_map]
  by_cases h0 : a 0 = 0
  · simp [h0]
  · simp [h0, Function.comp_def]

/-- **A bounded comparison finds the strings equal exactly if they are equal up to the first
NUL and the bound.** -/
theorem strncmp_eq_zero_iff (a b : Buffer) (n : ℕ) :
    strncmp a b n = 0 ↔ cstr n a = cstr n b := by
  induction n generalizing a b with
  | zero => simp [strncmp, cstr]
  | succ n ih =>
    rw [strncmp, cstr_succ, cstr_succ]
    by_cases hab : a 0 = b 0
    · rw [if_neg (by simpa using hab), hab]
      by_cases h0 : b 0 = 0
      · simp [h0]
      · simp [h0, ih]
    · -- The first bytes differ, and so do the strings, one of which may be empty.
      rw [if_pos hab]
      have hne : (a 0).toNat ≠ (b 0).toNat := fun h => hab (UInt8.toNat_inj.mp h)
      refine iff_of_false (by omega) ?_
      by_cases ha : a 0 = 0
      · have hb : b 0 ≠ 0 := fun hb => hab (ha.trans hb.symm)
        simp [ha, hb]
      · by_cases hb : b 0 = 0
        · simp [ha, hb]
        · simp [ha, hb, hab]

/-- `cstr` only reads the first `n` bytes. -/
theorem cstr_congr {n : ℕ} {a b : Buffer} (h : ∀ i < n, a i = b i) : cstr n a = cstr n b := by
  unfold cstr
  congr 1
  apply List.map_congr_left
  intro i hi
  exact h i (List.mem_range.mp hi)

/-- The copied string is the one that was copied. -/
theorem cstr_strncpy (dst src : Buffer) (n : ℕ) : cstr n (strncpy dst src n) = cstr n src := by
  have hcopy : cstr n (strncpy dst src n) = cstr n fun i => (cstr n src).getD i 0 := by
    apply cstr_congr
    intro i hi
    exact dst.copy_of_mem _ (Nat.zero_le i) (by omega)
  rw [hcopy]
  clear hcopy
  -- Byte by byte: the padding starts with a NUL, where `cstr` stops.
  induction n generalizing src with
  | zero => rfl
  | succ n ih =>
    rw [cstr_succ n, cstr_succ n src]
    by_cases h0 : src 0 = 0
    · simp [h0]
    · simp only [h0, if_false, List.getD_cons_zero, List.getD_cons_succ]
      rw [ih]

/-- A C string: the bytes in front of the NUL. -/
abbrev CStr := {bytes : List UInt8 // 0 ∉ bytes}

/-- `strcmp`; what is found behind the last byte is the NUL. -/
def strcmp : List UInt8 → List UInt8 → Int
  | [], [] => 0
  | [], b :: _ => -b.toNat
  | a :: _, [] => a.toNat
  | a :: as, b :: bs => if a = b then strcmp as bs else a.toNat - b.toNat

theorem strcmp_eq_zero_iff_of_notMem {a b : List UInt8} (ha : 0 ∉ a) (hb : 0 ∉ b) :
    strcmp a b = 0 ↔ a = b := by
  have hne : ∀ x : UInt8, x ≠ 0 → x.toNat ≠ 0 := fun x hx h => hx (UInt8.toNat_inj.mp h)
  induction a generalizing b with
  | nil =>
    cases b with
    | nil => simp [strcmp]
    | cons y bs =>
      have := hne y fun h => hb (by simp [h])
      simp only [strcmp, reduceCtorEq, iff_false]
      omega
  | cons x as ih =>
    cases b with
    | nil =>
      have := hne x fun h => ha (by simp [h])
      simp only [strcmp, reduceCtorEq, iff_false]
      omega
    | cons y bs =>
      by_cases hxy : x = y
      · have ih := ih (fun h => ha (List.mem_cons_of_mem x h)) fun h =>
          hb (List.mem_cons_of_mem y h)
        simp only [strcmp, hxy, if_true, ih, List.cons.injEq, true_and]
      · have : x.toNat ≠ y.toNat := fun h => hxy (UInt8.toNat_inj.mp h)
        simp only [strcmp, hxy, if_false, List.cons.injEq, false_and, iff_false]
        omega

/-- Strings compare equal exactly if they are equal. -/
theorem strcmp_eq_zero_iff (a b : CStr) : strcmp a.1 b.1 = 0 ↔ a = b := by
  rw [strcmp_eq_zero_iff_of_notMem a.2 b.2, Subtype.ext_iff]

/-- The bytes of a string with its NUL. -/
def CStr.buffer (s : CStr) : Buffer := fun i => s.1.getD i 0

/-- `strcpy(dst, src)`: the bytes and the NUL, whatever the size of `dst`. -/
def strcpy (dst : Buffer) (src : CStr) : Buffer := dst.copy 0 (src.1.length + 1) src.buffer

/-- `strcmp(a, b)`, for a `b` that may end anywhere: the comparison ends with `a` at the latest. -/
def strcmpAt (a : CStr) (b : Buffer) : Int := strncmp a.buffer b (a.1.length + 1)

theorem strcpy_of_le {dst : Buffer} {src : CStr} {i : ℕ} (h : i ≤ src.1.length) :
    strcpy dst src i = src.buffer i :=
  dst.copy_of_mem _ (Nat.zero_le i) (by omega)

theorem strcpy_of_gt {dst : Buffer} {src : CStr} {i : ℕ} (h : src.1.length < i) :
    strcpy dst src i = dst i :=
  dst.copy_of_notMem _ (by omega)

theorem strcmpAt_eq_zero_iff (a : CStr) (b : Buffer) :
    strcmpAt a b = 0 ↔ ∀ i ≤ a.1.length, b i = a.buffer i := by
  obtain ⟨bytes, h0⟩ := a
  show strncmp (fun i => bytes.getD i 0) b (bytes.length + 1) = 0 ↔ ∀ i ≤ bytes.length,
    b i = bytes.getD i 0
  induction bytes generalizing b with
  | nil =>
    simp only [List.length_nil, Nat.le_zero, forall_eq, strncmp, List.getD_nil, ne_eq, if_true]
    by_cases hb : b 0 = 0
    · simp [hb]
    · have hne : (b 0).toNat ≠ 0 := fun h => hb (UInt8.toNat_inj.mp h)
      rw [if_pos (Ne.symm hb)]
      exact iff_of_false (by simpa using hne) hb
  | cons x xs ih =>
    have hx : x ≠ 0 := fun h => h0 (by simp [h])
    have ih := ih (fun i => b (i + 1)) fun h => h0 (List.mem_cons_of_mem x h)
    rw [strncmp]
    simp only [List.getD_cons_zero, List.getD_cons_succ, List.length_cons]
    by_cases hb : b 0 = x
    · rw [if_neg (by simpa using hb.symm), if_neg hx, ih]
      constructor
      · intro h i hi
        cases i with
        | zero => exact hb
        | succ i => exact h i (by omega)
      · intro h i hi
        exact h (i + 1) (by omega)
    · have hne : x.toNat ≠ (b 0).toNat := fun h => hb (UInt8.toNat_inj.mp h).symm
      rw [if_pos (Ne.symm hb)]
      exact iff_of_false (by omega) fun h => hb (h 0 (by omega))

/-- A string compares equal with a buffer that holds a string exactly if the strings are equal. -/
theorem strcmpAt_string {a b : CStr} {buf : Buffer} (hbuf : ∀ i ≤ b.1.length, buf i = b.buffer i) :
    strcmpAt a buf = 0 ↔ a = b := by
  have hzero : ∀ s : CStr, ∀ i < s.1.length, s.buffer i ≠ 0 := by
    intro s i hi h
    rw [CStr.buffer, List.getD_eq_getElem _ _ hi] at h
    exact s.2 (List.mem_of_getElem h)
  have hend : ∀ s : CStr, s.buffer s.1.length = 0 := fun s => List.getD_eq_default _ _ le_rfl
  rw [strcmpAt_eq_zero_iff]
  refine ⟨fun h => ?_, fun h i hi => by rw [hbuf i (h ▸ hi), h]⟩
  -- Each of the strings ends where the other one does.
  have hle : b.1.length ≤ a.1.length := by
    by_contra hlt
    refine hzero b a.1.length (by omega) ?_
    rw [← hbuf _ (by omega), h _ le_rfl, hend a]
  have hge : a.1.length ≤ b.1.length := by
    by_contra hlt
    refine hzero a b.1.length (by omega) ?_
    rw [← h _ hle, hbuf _ le_rfl, hend b]
  refine Subtype.ext (List.ext_getElem (by omega) fun i hi hi' => ?_)
  have hbyte := h i (by omega)
  rwa [hbuf i (by omega), CStr.buffer, CStr.buffer, List.getD_eq_getElem _ _ hi,
    List.getD_eq_getElem _ _ hi', eq_comm] at hbyte

/-- The bytes of a string without its NUL, and whatever is behind them in memory. -/
def CStr.followedBy (s : CStr) (rest : Buffer) : Buffer :=
  fun i => if i < s.1.length then s.buffer i else rest (i - s.1.length)

/-- A string that is followed by a NUL ends there. -/
theorem CStr.followedBy_eq (s : CStr) {rest : Buffer} (h : rest 0 = 0) {i : ℕ}
    (hi : i ≤ s.1.length) : s.followedBy rest i = s.buffer i := by
  unfold followedBy
  split
  · rfl
  · obtain rfl : i = s.1.length := by omega
    rw [Nat.sub_self, h]
    exact (List.getD_eq_default _ _ le_rfl).symm

/-- A string is found equal to its copy exactly if a NUL is behind the copy. -/
theorem strcmpAt_followedBy_self (s : CStr) (rest : Buffer) :
    strcmpAt s (s.followedBy rest) = 0 ↔ rest 0 = 0 := by
  rw [strcmpAt_eq_zero_iff]
  constructor
  · intro h
    have hend := h s.1.length le_rfl
    rwa [CStr.followedBy, if_neg (lt_irrefl _), Nat.sub_self, CStr.buffer,
      List.getD_eq_default _ _ le_rfl] at hend
  · intro h i hi
    exact s.followedBy_eq h hi

end Nachos.Base
