import Nachos.Machine.Translate

namespace Nachos.Machine

open Base

/-!
# Machine — the physical bytes behind virtual addresses

`Translate` finds an entry in the page table or in the TLB and sets bits of it. What matters for
later accesses is the frame and the protection of each virtual page (`Tables.entry`), and no
translation changes those (`translate_eq_some_ok`).

So the accesses of the simulator can be said in terms of single bytes: `Maps t v writing x`, the
byte at the virtual address `v` is the byte at the physical address `x`. An access to the aligned
word around `v` succeeds if the byte at `v` is accessible, and finds it at its offset in the word
(`Maps.translate_word`).
-/

/-! ### The entry of a virtual page -/

namespace Tables

/-- The entry that translates a virtual page, as `Translate` finds it. -/
def entry (t : Tables) (vpn : ℕ) : Option TranslationEntry :=
  match t.tlb, t.pageTable with
  | none, some table => if vpn ≥ t.pageTableSize then none else table[vpn]?.filter (·.valid)
  | some tlb, none => tlb.find? fun e => e.valid && e.virtualPage == (vpn : Int)
  | _, _ => none

/-- Every virtual page has the same frame and the same protection in both. -/
def Same (t t' : Tables) : Prop :=
  ∀ vpn, (t'.entry vpn).map (fun e => (e.readOnly, e.pageFrame)) =
    (t.entry vpn).map (fun e => (e.readOnly, e.pageFrame))

theorem Same.trans {t t' t'' : Tables} (h : t.Same t') (h' : t'.Same t'') : t.Same t'' :=
  fun vpn => (h' vpn).trans (h vpn)

end Tables

section Touch

variable {e : TranslationEntry} {writing : Bool}

@[simp] theorem touch_valid : (e.touch writing).valid = e.valid := rfl

@[simp] theorem touch_virtualPage : (e.touch writing).virtualPage = e.virtualPage := rfl

@[simp] theorem touch_readOnly : (e.touch writing).readOnly = e.readOnly := rfl

@[simp] theorem touch_pageFrame : (e.touch writing).pageFrame = e.pageFrame := rfl

/-- Setting the bits of an entry of the page table. -/
theorem same_setPage {table : List TranslationEntry} {n k : ℕ} (he : table[k]? = some e) :
    Tables.Same ⟨none, some table, n⟩ ⟨none, some (table.set k (e.touch writing)), n⟩ := by
  intro vpn
  simp only [Tables.entry]
  split
  · rfl
  · by_cases hk : k = vpn
    · subst hk
      rw [List.getElem?_set_self (List.getElem?_eq_some_iff.mp he).1, he]
      cases hv : e.valid <;> simp [Option.filter, hv]
    · rw [List.getElem?_set_ne hk]

/-- Changing an element of a list in a way that a test and a view of it do not see. -/
theorem map_find?_set {α β : Type} {p : α → Bool} {f : α → β} {a b : α} (hp : p b = p a)
    (hf : f b = f a) {xs : List α} {k : ℕ} (hk : xs[k]? = some a) :
    ((xs.set k b).find? p).map f = (xs.find? p).map f := by
  induction xs generalizing k with
  | nil => cases hk
  | cons x xs ih =>
    cases k with
    | zero =>
      obtain rfl : x = a := by simpa using hk
      rw [List.set_cons_zero, List.find?_cons, List.find?_cons, hp]
      cases p x
      · rfl
      · exact congrArg some hf
    | succ k =>
      rw [List.set_cons_succ, List.find?_cons, List.find?_cons]
      cases p x
      · exact ih (by simpa using hk)
      · rfl

/-- Setting the bits of an entry of the TLB. -/
theorem same_setTlb {tlb : List TranslationEntry} {n k : ℕ} (he : tlb[k]? = some e) :
    Tables.Same ⟨some tlb, none, n⟩ ⟨some (tlb.set k (e.touch writing)), none, n⟩ := by
  intro vpn
  exact map_find?_set (p := fun e => e.valid && e.virtualPage == (vpn : Int))
    (f := fun e => (e.readOnly, e.pageFrame)) (a := e) (b := e.touch writing) rfl rfl he

end Touch

/-! ### Translation by the entry -/

section Translate

variable {t t' : Tables} {v : BitVec 32} {size : ℕ} {writing : Bool} {x : ℕ}

/-- The entry that the TLB lookup finds. -/
theorem find?_of_findIdx? {α : Type} {p : α → Bool} {xs : List α} {i : ℕ} {a : α}
    (hi : xs.findIdx? p = some i) (ha : xs[i]? = some a) : xs.find? p = some a := by
  rw [List.find?_eq_getElem?_findIdx, (List.findIdx?_eq_some_iff_findIdx_eq.mp hi).2, ha]

/-- **Translation.** It goes by the entry of the virtual page and keeps all frames and
protections. -/
theorem translate_eq_some_ok (h : translate t v size writing = some (.ok (x, t'))) :
    misaligned v size = false ∧ t.Same t' ∧ ∃ e, t.entry (v.toNat / pageSize) = some e ∧
      (e.readOnly && writing) = false ∧ e.pageFrame < numPhysPages ∧
      x = e.pageFrame * pageSize + v.toNat % pageSize := by
  obtain ⟨tlb, pageTable, n⟩ := t
  unfold translate at h
  split at h
  · cases h
  · rename_i hal
    refine ⟨by simpa using hal, ?_⟩
    simp only at h
    split at h
    · -- Through the page table.
      split at h
      · cases h
      · rename_i hlt
        split at h
        · cases h
        · rename_i e he
          split at h
          · rename_i hvalid
            obtain ⟨hro, hframe, hx, -, rfl⟩ := translateEntry_eq_ok.mp h
            refine ⟨same_setPage he, e, ?_, hro, hframe, hx⟩
            simp only [Tables.entry]
            rw [if_neg hlt, he, Option.filter_some, if_pos hvalid]
          · cases h
    · -- Through the TLB.
      split at h
      · cases h
      · rename_i i hi
        split at h
        · cases h
        · rename_i e he
          obtain ⟨hro, hframe, hx, -, rfl⟩ := translateEntry_eq_ok.mp h
          exact ⟨same_setTlb he, e, find?_of_findIdx? hi he, hro, hframe, hx⟩
    · cases h

/-- An aligned access of 1, 2 or 4 bytes to a page with an entry succeeds. -/
theorem translate_of_entry (hsize : size = 1 ∨ size = 2 ∨ size = 4)
    (hal : misaligned v size = false)
    {e : TranslationEntry} (he : t.entry (v.toNat / pageSize) = some e)
    (hro : (e.readOnly && writing) = false) (hframe : e.pageFrame < numPhysPages) :
    ∃ t', translate t v size writing =
      some (.ok (e.pageFrame * pageSize + v.toNat % pageSize, t')) := by
  have hin : e.pageFrame * pageSize + v.toNat % pageSize + size ≤ memorySize := by
    have hoff := offset_add_size_le hsize hal
    have hmul : (e.pageFrame + 1) * pageSize ≤ numPhysPages * pageSize :=
      Nat.mul_le_mul_right pageSize hframe
    rw [Nat.add_mul, Nat.one_mul] at hmul
    unfold memorySize
    omega
  obtain ⟨tlb, pageTable, n⟩ := t
  unfold translate
  rw [if_neg (by simpa using hal)]
  cases tlb with
  | none =>
    cases pageTable with
    | none => cases he
    | some table =>
      simp only [Tables.entry] at he
      by_cases hlt : v.toNat / pageSize ≥ n
      · rw [if_pos hlt] at he
        cases he
      · rw [if_neg hlt] at he
        obtain ⟨hget, hvalid⟩ := Option.filter_eq_some_iff.mp he
        simp only [hget]
        rw [if_neg hlt, if_pos hvalid]
        exact ⟨_, translateEntry_eq_ok.mpr ⟨hro, hframe, rfl, hin, rfl⟩⟩
  | some tlb =>
    cases pageTable with
    | some table => cases he
    | none =>
      simp only [Tables.entry] at he
      rw [List.find?_eq_getElem?_findIdx] at he
      have hidx : (tlb.findIdx? fun e =>
        e.valid && e.virtualPage == ((v.toNat / pageSize : ℕ) : Int)) =
          some (tlb.findIdx fun e => e.valid && e.virtualPage ==
          ((v.toNat / pageSize : ℕ) : Int)) :=
        List.findIdx?_eq_some_iff_findIdx_eq.mpr ⟨(List.getElem?_eq_some_iff.mp he).1, rfl⟩
      simp only [hidx, he]
      exact ⟨_, translateEntry_eq_ok.mpr ⟨hro, hframe, rfl, hin, rfl⟩⟩

end Translate

/-! ### Bytes -/

/-- The byte at the virtual address `v` is the one at the physical address `x`, and may be read or
written. -/
def Maps (t : Tables) (v : BitVec 32) (writing : Bool) (x : ℕ) : Prop :=
  ∃ t', translate t v 1 writing = some (.ok (x, t'))

section Maps

variable {t t' : Tables} {v : BitVec 32} {writing : Bool} {x : ℕ}

theorem misaligned_one (v : BitVec 32) : misaligned v 1 = false := rfl

theorem maps_iff : Maps t v writing x ↔ ∃ e, t.entry (v.toNat / pageSize) = some e ∧
    (e.readOnly && writing) = false ∧ e.pageFrame < numPhysPages ∧
    x = e.pageFrame * pageSize + v.toNat % pageSize := by
  constructor
  · rintro ⟨t', h⟩
    exact (translate_eq_some_ok h).2.2
  · rintro ⟨e, he, hro, hframe, rfl⟩
    exact translate_of_entry (.inl rfl) (misaligned_one v) he hro hframe

/-- Translations in between do not matter. -/
theorem Maps.same (h : Maps t v writing x) (hsame : t.Same t') : Maps t' v writing x := by
  obtain ⟨e, he, hro, hframe, hx⟩ := maps_iff.mp h
  have hpage := hsame (v.toNat / pageSize)
  rw [he, Option.map_some, Option.map_eq_some_iff] at hpage
  obtain ⟨e', he', hkey⟩ := hpage
  rw [Prod.mk.injEq] at hkey
  exact maps_iff.mpr ⟨e', he', by rwa [hkey.1], by rwa [hkey.2], by rwa [hkey.2]⟩

theorem Maps.read (h : Maps t v true x) : Maps t v false x := by
  obtain ⟨e, he, -, hframe, hx⟩ := maps_iff.mp h
  exact maps_iff.mpr ⟨e, he, Bool.and_false _, hframe, hx⟩

theorem Maps.unique {writing' : Bool} {y : ℕ} (h : Maps t v writing x) (h' : Maps t v writing' y) :
    x = y := by
  obtain ⟨e, he, -, -, rfl⟩ := maps_iff.mp h
  obtain ⟨e', he', -, -, rfl⟩ := maps_iff.mp h'
  rw [he, Option.some.injEq] at he'
  rw [he']

theorem toNat_and_three (v : BitVec 32) : (v &&& 3#32).toNat = v.toNat % 4 := by
  rw [BitVec.toNat_and]
  exact Nat.and_two_pow_sub_one_eq_mod v.toNat 2

theorem toNat_sub_and_three (v : BitVec 32) :
    (v - (v &&& 3#32)).toNat = v.toNat - v.toNat % 4 := by
  have hle : (v &&& 3#32) ≤ v := by
    rw [BitVec.le_def, toNat_and_three]
    exact Nat.mod_le _ _
  rw [BitVec.toNat_sub_of_le hle, toNat_and_three]

theorem misaligned_word (v : BitVec 32) : misaligned (v - (v &&& 3#32)) 4 = false := by
  have h0 : (v - (v &&& 3#32)) &&& 3#32 = 0#32 := by
    apply BitVec.eq_of_toNat_eq
    rw [toNat_and_three, toNat_sub_and_three, BitVec.toNat_zero]
    omega
  simp [misaligned, h0]

/-- **Words.** The aligned word around a byte that may be accessed may be accessed, and has the byte
at its offset. -/
theorem Maps.translate_word (h : Maps t v writing x) :
    v.toNat % 4 ≤ x ∧ ∃ t', translate t (v - (v &&& 3#32)) 4 writing =
      some (.ok (x - v.toNat % 4, t')) ∧ t.Same t' := by
  obtain ⟨e, he, hro, hframe, rfl⟩ := maps_iff.mp h
  have hdiv : (v - (v &&& 3#32)).toNat / pageSize = v.toNat / pageSize := by
    rw [toNat_sub_and_three]
    unfold pageSize
    omega
  have hmod : (v - (v &&& 3#32)).toNat % pageSize + v.toNat % 4 = v.toNat % pageSize := by
    rw [toNat_sub_and_three]
    unfold pageSize
    omega
  obtain ⟨t', ht'⟩ :=
    translate_of_entry (.inr (.inr rfl)) (misaligned_word v) (hdiv ▸ he) hro hframe
  refine ⟨by omega, t', ?_, (translate_eq_some_ok ht').2.1⟩
  rw [ht', ← hmod, ← Nat.add_assoc, Nat.add_sub_cancel]

/-- The bytes of a word lie in the same order. -/
theorem Maps.add (h : Maps t v writing x) {j : ℕ} (hj : v.toNat % 4 + j < 4) :
    Maps t (v + BitVec.ofNat 32 j) writing (x + j) := by
  obtain ⟨e, he, hro, hframe, rfl⟩ := maps_iff.mp h
  have hv : (v + BitVec.ofNat 32 j).toNat = v.toNat + j := by
    have hlt := v.isLt
    rw [BitVec.toNat_add, BitVec.toNat_ofNat]
    omega
  have hdiv : (v.toNat + j) / pageSize = v.toNat / pageSize := by
    unfold pageSize
    omega
  have hmod : (v.toNat + j) % pageSize = v.toNat % pageSize + j := by
    unfold pageSize
    omega
  refine maps_iff.mpr ⟨e, by rw [hv, hdiv, he], hro, hframe, ?_⟩
  rw [hv, hmod, Nat.add_assoc]

theorem Maps.offset (h : Maps t v writing x) : x % pageSize = v.toNat % pageSize := by
  obtain ⟨e, -, -, -, rfl⟩ := maps_iff.mp h
  rw [Nat.add_comm, Nat.add_mul_mod_self_right, Nat.mod_mod]

end Maps

end Nachos.Machine
