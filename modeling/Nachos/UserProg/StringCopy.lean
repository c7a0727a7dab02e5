import Nachos.Machine.Coherence
import Nachos.UserProg.ReadWrite

namespace Nachos.UserProg

open Base Machine UserProg.Exception

/-!
# UserProg — strings between the kernel and the user

`User2System` and `System2User` with what their callers do not look at: the buffer that is
allocated, the addresses that are read, and the number of bytes that is returned.

* `user2SystemBuffer_eq`, `system2User_eq` — the calls of the exception handler are these, without
  that;
* `copyIn_of_reads`, `system2UserLoop_spec` — the two loops return if the bytes they come to are
  mapped;
* `string_copies_iff` — a string that is written to user memory is read back, and a read takes the
  bytes in front of the first NUL, exactly if the buffer can be allocated.
-/

/-! ### The functions -/

section Model

variable {K : Type} (S : Services K)

/-- `kernelBuf[i] = c`. -/
def putChar (kernelBuf : List UInt8) (i : ℕ) (c : UInt8) : Sys K (List UInt8) :=
  if i < kernelBuf.length then pure (kernelBuf.set i c) else throw .numBuffer

/-- The loop of `User2System`, with the number of rounds that are left. Beside the buffer there are
the addresses that have been read. -/
def user2SystemLoop (virtAddr : BitVec 32) :
    ℕ → ℕ → List UInt8 → List (BitVec 32) → Sys K (List UInt8 × List (BitVec 32))
  | 0, _, kernelBuf, reads => pure (kernelBuf, reads)
  | n + 1, i, kernelBuf, reads => do
    let oneChar ← onMachine (load (virtAddr + BitVec.ofNat 32 i) 1)
    let kernelBuf ← putChar kernelBuf i (UInt8.ofNat oneChar.toNat)
    let reads := reads ++ [virtAddr + BitVec.ofNat 32 i]
    if oneChar = 0 then pure (kernelBuf, reads)
    else user2SystemLoop virtAddr n (i + 1) kernelBuf reads

/-- `User2System`. -/
def user2SystemBuffer (virtAddr : BitVec 32) (limit : Int) :
    Sys K (List UInt8 × List (BitVec 32)) := do
  allocate S (wrap32 (limit + 1))
  let kernelBuf := List.replicate (limit + 1).toNat 0
  user2SystemLoop virtAddr limit.toNat 0 kernelBuf []

/-- The loop of `System2User`, with `len - i`. -/
def system2UserLoop (virtAddr : BitVec 32) (buffer : ℕ → UInt8) : ℕ → ℕ → Sys K ℕ
  | 0, i => pure i
  | n + 1, i => do
    -- A `char` is signed.
    let oneChar := BitVec.ofInt 32 (Int.bmod (buffer i).toNat 256)
    onMachine (store (virtAddr + BitVec.ofNat 32 i) 1 oneChar)
    if oneChar = 0 then pure (i + 1) else system2UserLoop virtAddr buffer n (i + 1)

/-- `System2User`. -/
def system2UserCount (virtAddr : BitVec 32) (len : Int) (buffer : ℕ → UInt8) : Sys K Int :=
  if len < 0 then pure (-1)
  else if len = 0 then pure len
  else do
    let i ← system2UserLoop virtAddr buffer len.toNat 0
    pure i

end Model

/-! ### The calls of the exception handler -/

section Handler

variable {K : Type} {S : Services K}

theorem add_ofNat (v : BitVec 32) (i j : ℕ) :
    v + BitVec.ofNat 32 i + BitVec.ofNat 32 j = v + BitVec.ofNat 32 (i + j) := by
  rw [BitVec.ofNat_add, BitVec.add_assoc]

/-- The addresses that a string is read from: its characters and its end, if it is in the range. -/
def readAddrs (virtAddr : BitVec 32) (i n : ℕ) (str : List UInt8) : List (BitVec 32) :=
  (List.range (min (str.length + 1) n)).map fun j => virtAddr + BitVec.ofNat 32 (i + j)

theorem readAddrs_cons (virtAddr : BitVec 32) (i n : ℕ) (c : UInt8) (str : List UInt8) :
    readAddrs virtAddr i (n + 1) (c :: str) =
      (virtAddr + BitVec.ofNat 32 i) :: readAddrs virtAddr (i + 1) n str := by
  unfold readAddrs
  rw [List.length_cons, Nat.add_min_add_right, List.range_succ_eq_map, List.map_cons, List.map_map]
  congr 1
  apply List.map_congr_left
  intro j _
  show virtAddr + BitVec.ofNat 32 (i + (j + 1)) = _
  rw [Nat.add_right_comm, Nat.add_assoc]

/-- The character goes behind those that are there. -/
theorem putChar_append (done : List UInt8) (m : ℕ) (c : UInt8) :
    (putChar (done ++ List.replicate (m + 1) 0) done.length c : Sys K (List UInt8)) =
      pure (done ++ [c] ++ List.replicate m 0) := by
  unfold putChar
  rw [if_pos (by simp), List.replicate_succ, List.set_append_right _ _ le_rfl, Nat.sub_self,
    List.set_cons_zero, List.append_assoc, List.singleton_append]

/-- What the loop of `User2System` adds to the one of the exception handler. -/
theorem user2SystemLoop_eq (virtAddr : BitVec 32) (n m : ℕ) (h : n < m) (done : List UInt8)
    (reads : List (BitVec 32)) :
    (user2SystemLoop virtAddr n done.length (done ++ List.replicate m 0) reads : Sys K _) =
      (fun str => (done ++ str ++ List.replicate (m - str.length) 0,
        reads ++ readAddrs virtAddr done.length n str)) <$>
          copyIn (virtAddr + BitVec.ofNat 32 done.length) n := by
  induction n generalizing m done reads with
  | zero =>
    show pure _ = _ <$> pure _
    rw [map_pure]
    simp [readAddrs]
  | succ n ih =>
    obtain _ | m := m
    · omega
    rw [user2SystemLoop, copyIn, map_bind]
    congr 1
    funext oneChar
    rw [putChar_append, pure_bind]
    by_cases h0 : oneChar = 0
    · -- The zero that is stored was there before.
      subst h0
      rw [if_pos rfl, if_pos rfl, map_pure]
      simp [readAddrs, List.replicate_succ]
    · rw [if_neg h0, if_neg h0, map_bind]
      have hrest := ih m (by omega) (done ++ [UInt8.ofNat oneChar.toNat])
        (reads ++ [virtAddr + BitVec.ofNat 32 done.length])
      rw [List.length_append, List.length_singleton, ← add_ofNat] at hrest
      rw [hrest, map_eq_pure_bind]
      congr 1
      funext rest
      rw [map_pure, readAddrs_cons]
      simp

/-- **`User2System`** leaves the characters in front of the first zero at the beginning of a buffer
of `limit + 1` bytes, with zeros behind them. -/
theorem user2SystemBuffer_eq (virtAddr : BitVec 32) {limit : Int} (h : 0 ≤ limit) :
    user2SystemBuffer S virtAddr limit =
      (fun str => (str ++ List.replicate (limit.toNat + 1 - str.length) 0,
        readAddrs virtAddr 0 limit.toNat str)) <$> user2System S virtAddr limit := by
  unfold user2SystemBuffer user2System
  rw [map_bind, Int.toNat_add h (by decide)]
  congr 1
  funext _
  have hloop :=
    user2SystemLoop_eq (K := K) virtAddr limit.toNat (limit.toNat + 1) (Nat.lt_succ_self _) [] []
  rw [List.length_nil, BitVec.add_zero] at hloop
  exact hloop

theorem storeBytes_congr {value value' : Int} (h : intByte value 0 = intByte value' 0)
    (mem : ℕ → UInt8) (x : ℕ) : storeBytes mem x 1 value = storeBytes mem x 1 value' := by
  funext p
  unfold storeBytes
  split
  · have hp : p - x = 0 := by omega
    rw [hp, h]
  · rfl

/-- The sign extension of a character does not reach the byte that is stored. -/
theorem intByte_signed (c : UInt8) : intByte (BitVec.ofInt 32 (Int.bmod c.toNat 256)).toInt 0 =
    c := by
  apply UInt8.toNat_inj.mp
  have hlt := c.toNat_lt
  have hlo := Int.le_bmod (x := c.toNat) (m := 256) (by decide)
  have hhi := Int.bmod_lt (x := c.toNat) (m := 256) (by decide)
  have hmod := Int.bmod_emod (x := c.toNat) (m := 256)
  rw [toInt_ofInt (by unfold minInt; omega) (by unfold maxInt; omega)]
  unfold intByte wordByte
  rw [UInt8.toNat_ofNat']
  omega

theorem store_char (addr : BitVec 32) (c : UInt8) :
    store addr 1 (BitVec.ofInt 32 (Int.bmod c.toNat 256)) =
    store addr 1 (BitVec.ofNat 32 c.toNat) := by
  have hbyte := (intByte_signed c).trans (intByte_ofNat c).symm
  funext m
  unfold store writeMem
  cases translate m.tables addr 1 true with
  | none => rfl
  | some r =>
    cases r with
    | error which => rfl
    | ok r =>
      simp only [storeBytes_congr hbyte]

theorem char_eq_zero (c : UInt8) : BitVec.ofInt 32 (Int.bmod c.toNat 256) = 0 ↔ c = 0 := by
  constructor
  · intro h
    have hchar := ofNat_signed c
    rw [h] at hchar
    exact hchar.symm
  · rintro rfl
    decide

theorem copyOut_eq (virtAddr : BitVec 32) (n i : ℕ) (buffer : List UInt8) :
    (copyOut (virtAddr + BitVec.ofNat 32 i) n (buffer.drop i) : Sys K Unit) =
      (fun _ => ()) <$> system2UserLoop virtAddr (fun i => buffer.getD i 0) n i := by
  induction n generalizing i with
  | zero =>
    show pure () = _ <$> pure _
    rw [map_pure]
  | succ n ih =>
    have hhead : (buffer.drop i).headD 0 = buffer.getD i 0 := by
      rw [List.headD_eq_head?_getD, List.head?_drop, List.getD_eq_getElem?_getD]
    rw [copyOut, system2UserLoop, map_bind, hhead, store_char]
    apply bind_congr
    intro _
    simp only [char_eq_zero]
    by_cases h0 : buffer.getD i 0 = 0
    · rw [if_pos h0, if_pos h0, map_pure]
    · rw [if_neg h0, if_neg h0, List.tail_drop, ← ih (i + 1), ← add_ofNat]
      rfl

/-- **`System2User`** of the exception handler does not return the number of bytes. -/
theorem system2User_eq (virtAddr : BitVec 32) (len : Int) (buffer : List UInt8) :
    (system2User virtAddr len buffer : Sys K Unit) =
      (fun _ => ()) <$> system2UserCount virtAddr len fun i => buffer.getD i 0 := by
  unfold system2User system2UserCount
  by_cases hneg : len < 0
  · rw [if_pos hneg.le, if_pos hneg, map_pure]
  · by_cases hzero : len = 0
    · rw [if_pos hzero.le, if_neg hneg, if_pos hzero, map_pure]
    · have hloop := copyOut_eq (K := K) virtAddr len.toNat 0 buffer
      rw [BitVec.add_zero, List.drop_zero] at hloop
      rw [if_neg (by omega), if_neg hneg, if_neg hzero, hloop, map_bind, map_eq_pure_bind]
      congr 1

end Handler

end Nachos.UserProg

/-! ### User memory through any page table -/

namespace Nachos.Machine.DistinctTable

open Base UserProg UserProg.Exception Function

variable (T : DistinctTable)

/-- The byte that `ReadMem` delivers at a virtual address. -/
def userByte (mem : ℕ → UInt8) (v : BitVec 32) : Option UInt8 :=
  match Machine.translate T.tables v 1 false with
  | some (.ok (x, _)) => some (mem x)
  | _ => none

/-- The user bytes from the virtual address `v` on. -/
def userBytes (mem : ℕ → UInt8) (v : BitVec 32) (i : ℕ) : Option UInt8 :=
  T.userByte mem (v + BitVec.ofNat 32 i)

/-- The virtual address is mapped and may be written. -/
def Writable (v : BitVec 32) : Prop := ∃ x, Maps T.tables v true x

/-- The kernel has reached user memory and nothing else: physical memory is now `mem`. -/
structure Leaves {K : Type} (s s' : CallState K) (mem : ℕ → UInt8) : Prop where
  kernel : s'.kernel = s.kernel
  registers : s'.machine.registers = s.machine.registers
  installed : T.Installed s'.machine.tables
  mainMemory : s'.machine.mainMemory = mem

variable {T} {mem : ℕ → UInt8} {v w : BitVec 32} {b : UInt8} {x : ℕ}

theorem userByte_eq_some : T.userByte mem v = some b ↔ ∃ x, Maps T.tables v false x ∧
    mem x = b := by
  unfold userByte
  constructor
  · intro h
    split at h
    · rename_i x t' htr
      exact ⟨x, ⟨t', htr⟩, Option.some.inj h⟩
    · cases h
  · rintro ⟨x, ⟨t', htr⟩, rfl⟩
    rw [htr]

/-- No two virtual addresses have the same byte. -/
theorem maps_inj {writing writing' : Bool} (hv : Maps T.tables v writing x)
    (hw : Maps T.tables w writing' x) : v = w := by
  have hphys : ∀ {v : BitVec 32} {writing : Bool}, Maps T.tables v writing x →
      T.physAddr v.toNat = some x := by
    intro v writing h
    obtain ⟨e, he, -, -, hx⟩ := maps_iff.mp h
    rw [physAddr, he, Option.map_some, hx]
  exact BitVec.eq_of_toNat_eq (physAddr_inj (hphys hv) (hphys hw))

variable {K : Type} {s s' s'' : CallState K} {mem' : ℕ → UInt8}

theorem Leaves.trans (h : T.Leaves s s' mem) (h' : T.Leaves s' s'' mem') : T.Leaves s s'' mem' :=
  ⟨h'.kernel.trans h.kernel, h'.registers.trans h.registers, h'.installed, h'.mainMemory⟩

/-- The page of a mapped address is in the table of the machine, whose bits may be others. -/
theorem Installed.translate_of_maps {t : Tables} {writing : Bool} (hT : T.Installed t)
    (hx : Maps T.tables v writing x) :
    ∃ t', Machine.translate t v 1 writing = some (.ok (x, t')) ∧ T.Installed t' := by
  obtain ⟨t', htr⟩ := hx.same hT.same
  exact ⟨t', htr, (Installed.translate (w := .byte) hT htr).1⟩

/-- `ReadMem` of a byte that is mapped. -/
theorem load_userByte (hT : T.Installed s.machine.tables)
    (h : T.userByte s.machine.mainMemory v = some b) :
    ∃ s', onMachine (load v 1) s = .ok (BitVec.ofInt 32 (Int.bmod b.toNat 256)) s' ∧
      T.Leaves s s' s.machine.mainMemory := by
  obtain ⟨x, hx, rfl⟩ := userByte_eq_some.mp h
  obtain ⟨t', htr, hT'⟩ := hT.translate_of_maps hx
  refine ⟨{ s with machine := { s.machine with tables := t' } }, ?_, rfl, rfl, hT', rfl⟩
  unfold onMachine load readMem
  simp only [htr]

/-- `WriteMem` of a character to a byte that may be written. -/
theorem store_userByte (hT : T.Installed s.machine.tables) (hx : Maps T.tables v true x)
    (c : UInt8) :
    ∃ s', onMachine (store v 1 (BitVec.ofInt 32 (Int.bmod c.toNat 256))) s = .ok () s' ∧
      T.Leaves s s' (update s.machine.mainMemory x c) := by
  obtain ⟨t', htr, hT'⟩ := hT.translate_of_maps hx
  have hstore : storeBytes s.machine.mainMemory x 1 (BitVec.ofInt 32 (Int.bmod c.toNat 256)).toInt
      = update s.machine.mainMemory x c := by
    funext p
    unfold storeBytes
    by_cases hp : p = x
    · subst hp
      rw [if_pos ⟨le_rfl, Nat.lt_succ_self p⟩, Nat.sub_self, intByte_signed, update_self]
    · rw [if_neg (by omega), update_of_ne hp]
  refine ⟨{ s with machine := { s.machine with
    mainMemory := update s.machine.mainMemory x c, tables := t' } }, ?_, rfl, rfl, hT', rfl⟩
  unfold onMachine store writeMem
  simp only [htr, true_or, if_true, hstore]

/-! ### The loops -/

/-- **The loop of `User2System`** returns if the bytes up to the first NUL are mapped. -/
theorem copyIn_of_reads (hT : T.Installed s.machine.tables) {n : ℕ} {str : List UInt8}
    (h : ReadsString (T.userBytes s.machine.mainMemory v) n str) :
    ∃ s', copyIn v n s = .ok str s' ∧ T.Leaves s s' s.machine.mainMemory := by
  -- A round reads one byte, and the rest of the loop starts at the next address.
  induction n generalizing v str s with
  | zero =>
    obtain rfl := readsString_zero.mp h
    exact ⟨s, rfl, rfl, rfl, hT, rfl⟩
  | succ n ih =>
    have hfirst : T.userBytes s.machine.mainMemory v 0 = T.userByte s.machine.mainMemory v := by
      rw [userBytes, BitVec.add_zero]
    cases str with
    | nil =>
      obtain ⟨s₁, hload, hs₁⟩ := load_userByte hT (hfirst.symm.trans (readsString_nil.mp h))
      refine ⟨s₁, ?_, hs₁⟩
      rw [copyIn, bind_ok hload, if_pos ((char_eq_zero 0).mpr rfl)]
      rfl
    | cons c rest =>
      obtain ⟨hc, hc0, hrest⟩ := readsString_cons.mp h
      obtain ⟨s₁, hload, hs₁⟩ := load_userByte hT (hfirst.symm.trans hc)
      have hnext : T.userBytes s₁.machine.mainMemory (v + 1) =
          fun i => T.userBytes s.machine.mainMemory v (i + 1) := by
        funext i
        show T.userByte _ (v + BitVec.ofNat 32 1 + BitVec.ofNat 32 i) = _
        rw [add_ofNat, hs₁.mainMemory, Nat.add_comm]
        rfl
      rw [← hnext] at hrest
      obtain ⟨s₂, hcopy, hs₂⟩ := ih hs₁.installed hrest
      rw [hs₁.mainMemory] at hs₂
      have hne := mt (char_eq_zero c).mp hc0
      refine ⟨s₂, ?_, hs₁.trans hs₂⟩
      rw [copyIn, bind_ok hload, if_neg hne, bind_ok hcopy, ofNat_signed]
      rfl

/-- Physical memory behind a write to `n` virtual addresses from `v + i` on. -/
structure Wrote (T : DistinctTable) (v : BitVec 32) (i n : ℕ) (buffer : ℕ → UInt8)
    (mem mem' : ℕ → UInt8) :
    Prop where
  written : ∀ j < n, ∀ {x}, Maps T.tables (v + BitVec.ofNat 32 (i + j)) true x →
    mem' x = buffer (i + j)
  others : ∀ x, (∀ j < n, ¬ Maps T.tables (v + BitVec.ofNat 32 (i + j)) true x) → mem' x = mem x

theorem Wrote.nil (T : DistinctTable) (v : BitVec 32) (i : ℕ) (buffer mem : ℕ → UInt8) :
    Wrote T v i 0 buffer mem mem :=
  ⟨fun j hj => absurd hj (Nat.not_lt_zero j), fun _ _ => rfl⟩

/-- One byte, and the bytes behind it. -/
theorem Wrote.cons {buffer : ℕ → UInt8} {i n : ℕ}
    (hx : Maps T.tables (v + BitVec.ofNat 32 i) true x) (hn : n < 4294967296)
    (h : Wrote T v (i + 1) n buffer (update mem x (buffer i)) mem') :
    Wrote T v i (n + 1) buffer mem mem' := by
  have hshift : ∀ j, i + 1 + j = i + (j + 1) := fun j => by omega
  obtain ⟨hwritten, hothers⟩ := h
  simp only [hshift] at hwritten hothers
  refine ⟨fun j hj y hy => ?_, fun y hy => ?_⟩
  · cases j with
    | zero =>
      obtain rfl := hx.unique hy
      -- The first byte is written once, since the addresses behind it are others.
      rw [hothers x, update_self, Nat.add_zero]
      intro j hj hmaps
      have heq := congrArg BitVec.toNat (maps_inj hx hmaps)
      rw [← add_ofNat] at heq
      bv_omega
    | succ j => exact hwritten j (Nat.lt_of_succ_lt_succ hj) hy
  · rw [hothers y fun j hj => hy (j + 1) (Nat.succ_lt_succ hj), update_of_ne]
    rintro rfl
    exact hy 0 (Nat.succ_pos n) hx

/-- **The loop of `System2User`** returns if the bytes up to the first NUL of the buffer may be
written. -/
theorem system2UserLoop_spec (hT : T.Installed s.machine.tables) {buffer : ℕ → UInt8} {i len n : ℕ}
    (hchars : ∀ j < len, buffer (i + j) ≠ 0) (hend : buffer (i + len) = 0) (hlen : len < n)
    (hn : n < 4294967296) (hwritable : ∀ j ≤ len, T.Writable (v + BitVec.ofNat 32 (i + j))) :
    ∃ s' mem', system2UserLoop v buffer n i s = .ok (i + len + 1) s' ∧ T.Leaves s s' mem' ∧
      Wrote T v i (len + 1) buffer s.machine.mainMemory mem' := by
  induction len generalizing i n s with
  | zero =>
    obtain _ | n := n
    · omega
    obtain ⟨x, hx⟩ := hwritable 0 le_rfl
    rw [Nat.add_zero] at hx
    obtain ⟨s₁, hstore, hs₁⟩ := store_userByte hT hx (buffer i)
    refine ⟨s₁, _, ?_, hs₁, Wrote.cons hx (by decide) (Wrote.nil ..)⟩
    rw [system2UserLoop, bind_ok hstore, if_pos ((char_eq_zero (buffer i)).mpr hend)]
    rfl
  | succ len ih =>
    obtain _ | n := n
    · omega
    obtain ⟨x, hx⟩ := hwritable 0 (Nat.zero_le _)
    rw [Nat.add_zero] at hx
    obtain ⟨s₁, hstore, hs₁⟩ := store_userByte hT hx (buffer i)
    have hshift : ∀ j, i + 1 + j = i + (j + 1) := fun j => by omega
    obtain ⟨s₂, mem', hloop, hs₂, hwrote⟩ := ih (n := n) (i := i + 1) hs₁.installed
      (fun j hj => hshift j ▸ hchars (j + 1) (Nat.succ_lt_succ hj)) (hshift len ▸ hend) (by omega)
      (by omega) (fun j hj => hshift j ▸ hwritable (j + 1) (Nat.succ_le_succ hj))
    rw [hs₁.mainMemory] at hwrote
    refine ⟨s₂, mem', ?_, hs₁.trans hs₂, hwrote.cons hx (by omega)⟩
    have hne := mt (char_eq_zero (buffer i)).mp (hchars 0 (Nat.succ_pos len))
    rw [system2UserLoop, bind_ok hstore, if_neg hne, hloop, hshift]

end Nachos.Machine.DistinctTable

/-! ### Inverse copies -/

namespace Nachos.UserProg

open Base Machine UserProg.Exception

/-- A buffer that holds a string. -/
structure BufferHolds (buffer : ℕ → UInt8) (str : List UInt8) : Prop where
  chars : ∀ j < str.length, str[j]? = some (buffer j)
  ends : buffer str.length = 0
  ne_zero : 0 ∉ str

/-- The user bytes `[v, v + length]` are a string and its end, and no other byte has changed. -/
structure WritesString (T : DistinctTable) (v : BitVec 32) (str : List UInt8)
    (mem mem' : ℕ → UInt8) :
    Prop where
  string : ∀ j ≤ str.length, T.userBytes mem' v j = some (str.getD j 0)
  others : ∀ w, (∀ j ≤ str.length, w ≠ v + BitVec.ofNat 32 j) → T.userByte mem' w = T.userByte mem w
  physical : ∀ x, (∀ j ≤ str.length, ¬ Maps T.tables (v + BitVec.ofNat 32 j) true x) →
    mem' x = mem x

section Copies

variable {K : Type} (S : Services K) (T : DistinctTable) (s : CallState K) (v : BitVec 32)

/-- `System2User` returns the number of bytes and writes the string, and `User2System` then returns
it. -/
def CopiesBack (buffer : ℕ → UInt8) (str : List UInt8) (limit : Int) : Prop :=
  ∃ s₁ mem₁ kernelBuf reads s₂,
    system2UserCount v (str.length + 1) buffer s = .ok (str.length + 1 : Int) s₁ ∧
    T.Leaves s s₁ mem₁ ∧ WritesString T v str s.machine.mainMemory mem₁ ∧
    user2SystemBuffer S v limit s₁ = .ok (kernelBuf, reads) s₂ ∧
    kernelBuf.takeWhile (· ≠ 0) = str

/-- `User2System` returns the longest string without NUL at `v`, of at most `limit` bytes, with a
NUL in its buffer of `limit + 1` bytes. It reads no byte behind the first NUL or behind the
limit. -/
def CopiesString (limit : Int) : Prop :=
  ∃ str reads s',
    user2SystemBuffer S v limit s = .ok (str ++ List.replicate (limit.toNat + 1 - str.length) 0,
      reads) s' ∧
    str.length < limit.toNat + 1 ∧ T.Leaves s s' s.machine.mainMemory ∧
    ReadsString (T.userBytes s.machine.mainMemory v) limit.toNat str ∧
    ∀ a ∈ reads, ∃ j < limit.toNat, a = v + BitVec.ofNat 32 j ∧
      ∀ k < j, T.userBytes s.machine.mainMemory v k ≠ some 0

variable {S T s v} {limit : BitVec 32} {str : List UInt8}

theorem map_ok {α β : Type} {c : Sys K α} {s s' : CallState K} {a : α} (f : α → β)
    (h : c s = .ok a s') : (f <$> c) s = .ok (f a) s' := by
  rw [map_eq_pure_bind, bind_ok h]
  rfl

theorem add_one_le_maxAlloc (h0 : 0 ≤ limit.toInt) {s' : CallState K}
    {r : List UInt8 × List (BitVec 32)} (h : user2SystemBuffer S v limit.toInt s = .ok r s') :
    limit.toInt + 1 ≤ S.maxAlloc := by
  rw [user2SystemBuffer_eq v h0, map_eq_pure_bind] at h
  obtain ⟨text, s₁, huser, -⟩ := bind_eq_ok h
  exact (fits_of_user2System huser).2

theorem user2SystemBuffer_of_reads (hT : T.Installed s.machine.tables) (h0 : 0 ≤ limit.toInt)
    (halloc : limit.toInt + 1 ≤ S.maxAlloc)
    (h : ReadsString (T.userBytes s.machine.mainMemory v) limit.toInt.toNat str) :
    ∃ s', user2SystemBuffer S v limit.toInt s =
        .ok (str ++ List.replicate (limit.toInt.toNat + 1 - str.length) 0,
          readAddrs v 0 limit.toInt.toNat str) s' ∧
      T.Leaves s s' s.machine.mainMemory := by
  obtain ⟨s', hcopy, hs'⟩ := DistinctTable.copyIn_of_reads hT h
  refine ⟨s', ?_, hs'⟩
  have haddr := S.addresses
  have hwrap : wrap32 (limit.toInt + 1) = limit.toInt + 1 :=
    wrap32_of_nonneg (by omega) (by omega)
  have hok : allocate S (wrap32 (limit.toInt + 1)) s = .ok () s := by
    unfold allocate
    rw [hwrap, if_neg (by omega)]
    rfl
  rw [user2SystemBuffer_eq v h0]
  apply map_ok
  rw [user2System, bind_ok hok, hcopy]

theorem mem_readAddrs {a : BitVec 32} {n : ℕ} (h : a ∈ readAddrs v 0 n str) :
    ∃ j < n, a = v + BitVec.ofNat 32 j ∧ j ≤ str.length := by
  obtain ⟨j, hj, rfl⟩ := List.mem_map.mp h
  rw [List.mem_range] at hj
  exact ⟨j, by omega, by rw [Nat.zero_add], by omega⟩

theorem BufferHolds.getD {buffer : ℕ → UInt8} (h : BufferHolds buffer str) {j : ℕ}
    (hj : j ≤ str.length) : buffer j = str.getD j 0 := by
  rw [List.getD_eq_getElem?_getD]
  rcases Nat.lt_or_eq_of_le hj with hlt | rfl
  · rw [h.chars j hlt, Option.getD_some]
  · rw [List.getElem?_eq_none le_rfl, Option.getD_none, h.ends]

/-- The user's view of the write. -/
theorem writesString_of_wrote {buffer mem mem' : ℕ → UInt8} (hbuffer : BufferHolds buffer str)
    (hwritable : ∀ j ≤ str.length, T.Writable (v + BitVec.ofNat 32 j))
    (h : DistinctTable.Wrote T v 0 (str.length + 1) buffer mem mem') :
    WritesString T v str mem mem' := by
  obtain ⟨hwritten, hothers⟩ := h
  simp only [Nat.zero_add, Nat.lt_succ_iff] at hwritten hothers
  refine ⟨fun j hj => ?_, fun w hw => ?_, hothers⟩
  · obtain ⟨x, hx⟩ := hwritable j hj
    rw [← hbuffer.getD hj]
    exact DistinctTable.userByte_eq_some.mpr ⟨x, hx.read, hwritten j hj hx⟩
  · -- A byte of another address is at another place.
    have hkept : ∀ {x}, Maps T.tables w false x → mem' x = mem x := by
      intro x hx
      apply hothers x
      intro j hj hmaps
      exact hw j hj (DistinctTable.maps_inj hx hmaps)
    apply Option.ext
    intro b
    rw [DistinctTable.userByte_eq_some, DistinctTable.userByte_eq_some]
    apply exists_congr
    intro x
    apply and_congr_right
    intro hx
    rw [hkept hx]

/-- The string that has been written is there to be read. -/
theorem WritesString.reads {mem mem' : ℕ → UInt8} (h : WritesString T v str mem mem') (h0 : 0 ∉ str)
    {n : ℕ} (hn : str.length < n) : ReadsString (T.userBytes mem' v) n str := by
  refine ⟨fun j hj => ?_, h0, .inr ⟨hn, ?_⟩⟩
  · rw [h.string j hj.le, List.getD_eq_getElem?_getD, List.getElem?_eq_getElem hj, Option.getD_some]
  · rw [h.string _ le_rfl, List.getD_eq_getElem?_getD, List.getElem?_eq_none le_rfl,
      Option.getD_none]

/-- **`System2User`** of a string. -/
theorem system2UserCount_spec (hT : T.Installed s.machine.tables) {buffer : ℕ → UInt8}
    (hbuffer : BufferHolds buffer str)
    (hwritable : ∀ j ≤ str.length, T.Writable (v + BitVec.ofNat 32 j))
    (hlen : str.length < 4294967295) :
    ∃ s₁ mem₁, system2UserCount v (str.length + 1) buffer s = .ok (str.length + 1 : Int) s₁ ∧
      T.Leaves s s₁ mem₁ ∧ WritesString T v str s.machine.mainMemory mem₁ := by
  have hne : ∀ j < str.length, buffer (0 + j) ≠ 0 := by
    intro j hj hzero
    rw [Nat.zero_add] at hzero
    have hchar := hbuffer.chars j hj
    rw [hzero] at hchar
    exact hbuffer.ne_zero (List.mem_of_getElem? hchar)
  obtain ⟨s₁, mem₁, hloop, hs₁, hwrote⟩ := DistinctTable.system2UserLoop_spec (i := 0)
    (n := str.length + 1) hT hne (by rw [Nat.zero_add]; exact hbuffer.ends) (Nat.lt_succ_self _)
    (by omega) (fun j hj => by rw [Nat.zero_add]; exact hwritable j hj)
  refine ⟨s₁, mem₁, ?_, hs₁, writesString_of_wrote hbuffer hwritable hwrote⟩
  unfold system2UserCount
  have hcount : ((str.length : Int) + 1).toNat = str.length + 1 := by omega
  rw [if_neg (by omega), if_neg (by omega), hcount, bind_ok hloop, Nat.zero_add]
  rfl

end Copies

/-- **Inverse string copies.** Over any page table without shared frames, a string that is written
to user memory is read back, and a read takes the bytes in front of the first NUL if these are
mapped, exactly if a buffer of `limit + 1` bytes can be allocated. -/
theorem string_copies_iff {K : Type} (S : Services K) (T : DistinctTable) (s : CallState K)
    (hT : T.Installed s.machine.tables) (v limit : BitVec 32) (h0 : 0 ≤ limit.toInt) :
    (∀ buffer str, BufferHolds buffer str →
        (∀ j ≤ str.length, T.Writable (v + BitVec.ofNat 32 j)) → (str.length : Int) < limit.toInt →
        (CopiesBack S T s v buffer str limit.toInt ↔ limit.toInt + 1 ≤ S.maxAlloc)) ∧
      (CopiesString S T s v limit.toInt ↔ limit.toInt + 1 ≤ S.maxAlloc ∧
        ∃ str, ReadsString (T.userBytes s.machine.mainMemory v) limit.toInt.toNat str) := by
  refine ⟨fun buffer str hbuffer hwritable hlen => ⟨?_, ?_⟩, ?_, ?_⟩
  · rintro ⟨s₁, mem₁, kernelBuf, reads, s₂, -, -, -, hread, -⟩
    exact add_one_le_maxAlloc h0 hread
  · intro halloc
    have hhi := limit.toInt_lt
    obtain ⟨s₁, mem₁, hcount, hs₁, hwrites⟩ := system2UserCount_spec hT hbuffer hwritable (by omega)
    have hreads := hwrites.reads hbuffer.ne_zero (n := limit.toInt.toNat) (by omega)
    rw [← hs₁.mainMemory] at hreads
    obtain ⟨s₂, hread, -⟩ := user2SystemBuffer_of_reads hs₁.installed h0 halloc hreads
    refine ⟨s₁, mem₁, _, _, s₂, hcount, hs₁, hwrites, hread, ?_⟩
    rw [List.takeWhile_append_of_pos (takes_all hbuffer.ne_zero)]
    obtain ⟨k, hk⟩ : ∃ k, limit.toInt.toNat + 1 - str.length = k + 1 :=
      ⟨limit.toInt.toNat - str.length, by omega⟩
    rw [hk, List.replicate_succ, List.takeWhile_cons_of_neg (by decide), List.append_nil]
  · rintro ⟨str, reads, s', hread, -, -, hreads, -⟩
    exact ⟨add_one_le_maxAlloc h0 hread, str, hreads⟩
  · rintro ⟨halloc, str, hreads⟩
    obtain ⟨s', hread, hs'⟩ := user2SystemBuffer_of_reads hT h0 halloc hreads
    refine ⟨str, _, s', hread, Nat.lt_succ_of_le hreads.length_le, hs', hreads, fun a ha => ?_⟩
    obtain ⟨j, hj, rfl, hjlen⟩ := mem_readAddrs ha
    exact ⟨j, hj, rfl, fun k hk => hreads.user_ne_zero (Nat.lt_of_lt_of_le hk hjlen)⟩

/-- A page table with one page. -/
def oneEntry : DistinctTable where
  entries := [⟨0, 0, true, false, false, false⟩]
  size := 1
  size_le := le_rfl
  distinct hi hj _ _ _ := by
    have hi := (List.getElem?_eq_some_iff.mp hi).1
    have hj := (List.getElem?_eq_some_iff.mp hj).1
    rw [List.length_singleton] at hi hj
    omega

theorem writable_oneEntry {v : BitVec 32} (hv : v.toNat < 128) : oneEntry.Writable v := by
  have hpage : v.toNat / pageSize = 0 := Nat.div_eq_of_lt hv
  refine ⟨_, maps_iff.mpr ⟨⟨0, 0, true, false, false, false⟩, ?_, rfl, by decide, rfl⟩⟩
  rw [hpage]
  rfl

theorem bufferHolds_two : BufferHolds (fun j => [89, 111].getD j 0) [89, 111] :=
  ⟨by decide, rfl, by decide⟩

theorem writable_two : ∀ j ≤ ([89, 111] : List UInt8).length,
    oneEntry.Writable (0 + BitVec.ofNat 32 j) := by
  intro j hj
  rw [List.length_cons, List.length_singleton] at hj
  apply writable_oneEntry
  bv_omega

theorem string_copies_iff_two :
    CopiesBack singleThread.toServices oneEntry (fileCall 0 0 0 [72, 105, 0] []) 0
        (fun j => [89, 111].getD j 0) [89, 111] 255 ∧
      CopiesString singleThread.toServices oneEntry (fileCall 0 0 0 [72, 105, 0] []) 0 255 := by
  obtain ⟨hback, hstring⟩ := string_copies_iff singleThread.toServices oneEntry
    (fileCall 0 0 0 [72, 105, 0] []) oneEntry.installed 0 255 (by decide)
  refine ⟨(hback _ _ bufferHolds_two writable_two (by decide)).mpr (by decide),
    hstring.mpr ⟨by decide, [72, 105], by decide, by decide, .inr ⟨by decide, by decide⟩⟩⟩

/-- The largest limit: `limit + 1` overflows, and nothing can be read back. -/
theorem string_copies_largest :
    BufferHolds (fun j => [89, 111].getD j 0) [89, 111] ∧
      (∀ j ≤ ([89, 111] : List UInt8).length, oneEntry.Writable (0 + BitVec.ofNat 32 j)) ∧
      ¬ CopiesBack singleThread.toServices oneEntry (fileCall 0 0 0 [72, 105, 0] []) 0
        (fun j => [89, 111].getD j 0) [89, 111] maxInt ∧
      ¬ CopiesString singleThread.toServices oneEntry (fileCall 0 0 0 [72, 105, 0] []) 0
        maxInt := by
  have hrefused : ∀ r s s', user2SystemBuffer singleThread.toServices 0 maxInt s ≠ .ok r s' :=
    fun r s s' h => absurd
      (add_one_le_maxAlloc (show 0 ≤ (2147483647 : BitVec 32).toInt by decide) h) (by decide)
  refine ⟨bufferHolds_two, writable_two, ?_, ?_⟩
  · rintro ⟨s₁, mem₁, kernelBuf, reads, s₂, -, -, -, hread, -⟩
    exact hrefused _ _ _ hread
  · rintro ⟨str, reads, s', hread, -⟩
    exact hrefused _ _ _ hread

end Nachos.UserProg
