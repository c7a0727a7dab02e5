import Mathlib.Data.List.GetD
import Mathlib.Data.List.TakeWhile
import Nachos.UserProg.FileCalls

namespace Nachos.UserProg

open Base FileSys.Stub Machine UserProg.Exception

/-!
# UserProg — the bytes of `SC_Read` and `SC_Write`

Both calls move their bytes through a buffer of the kernel, which `User2System` fills from user
memory and `System2User` copies back. The two are loops over C strings: the first one stops at the
first NUL of the user's buffer and leaves zeros behind it, the second one writes up to the first NUL
of the kernel's buffer and writes that as well, at most `size + 1` bytes.

* `scRead_spec`, `scWrite_spec` — what a call does to user memory, to the file and to the console;
* `read_delivers_iff` — `SC_Read` delivers the bytes of the file, and nothing else, if and only if
  these two loops happen to do no harm;
* `write_stores_iff` — `SC_Write` stores the bytes of the user if and only if there are only zeros
  behind the first NUL.
-/

section Calls

variable {S : FileServices} {l : PageMap} {s s' : CallState FileKernel}

/-- **What `SC_Read` does** when it returns a number of bytes. -/
theorem scRead_spec (hl : l.Installed s.machine) (hsize : 0 ≤ (s.at 5).toInt)
    (hoff : ∀ f, s.kernel.descriptor (s.at 6).toInt = some f → 0 ≤ f.currentOffset)
    (h : scRead S.toServices s = .ok () s') (hpos : 0 < (s'.at 2).toInt) :
    ∃ bytes str, bytes = s.kernel.next (s.at 6).toInt (s.at 5).toInt.toNat ∧
      ReadsString (l.bytesFrom s.machine (s.at 4).toNat) (s.at 5).toInt.toNat str ∧
      (s'.at 2).toInt = bytes.length ∧
      l.byteAt s'.machine = writtenFrom (s.at 4).toNat ((s.at 5).toInt.toNat + 1)
        (bytes ++ str.drop bytes.length) (l.byteAt s.machine) := by
  unfold scRead at h
  rw [readArgs_eq] at h
  obtain ⟨str, s₁, huser, h⟩ := bind_eq_ok h
  obtain ⟨hmax, hstr, hs₁⟩ := user2System_spec hl huser
  -- The buffer of the kernel has the bytes of the file in front of what is left of the string.
  rw [← hs₁.kernel] at hoff
  obtain ⟨result, buffer, k, hread, hge, hle, hdelivered⟩ := FileKernel.sysRead_spec str hsize hoff
  obtain ⟨s₂, hserve, hs₂⟩ := S.serve_read hread
  rw [bind_ok (service_of_returned hserve)] at h
  simp only at h
  rw [bind_ok (writeRegister_eq (by decide) _ s₂)] at h
  obtain ⟨_, s₃, hcopy, hpc⟩ := bind_eq_ok h
  obtain ⟨-, hresult, hview⟩ := increasePC_spec (l := l) hpc
  -- The user's memory has not changed so far, not even while the thread waited for the console.
  obtain ⟨hl₂, hview₂⟩ := hs₂.user l hs₁.installed
  have hint : (BitVec.ofInt 32 result).toInt = result :=
    toInt_ofInt (by unfold minInt; omega) (by omega)
  rw [hint] at hcopy
  by_cases h0 : 0 < result
  · rw [if_pos h0, wrap32_of_nonneg (by omega) hmax] at hcopy
    unfold system2User at hcopy
    rw [if_neg (by omega), show ((s.at 5).toInt + 1).toNat = (s.at 5).toInt.toNat + 1 by omega]
      at hcopy
    have hs₃ :=
      copyOut_spec (l := l) (show l.Installed (s₂.put 2 _ (by decide)).machine from hl₂) hcopy
    obtain ⟨hcount, hbuffer⟩ := hdelivered h0
    rw [hs₁.kernel] at hcount hbuffer
    refine ⟨_, str, rfl, hstr, ?_, ?_⟩
    · rw [hresult, hs₃.at_eq, CallState.at_put, if_pos rfl, hint, hcount]
    · rw [hview, hs₃.byteAt, hbuffer]
      show writtenFrom _ _ _ (l.byteAt s₂.machine) = _
      rw [hview₂, hs₁.byteAt]
  · rw [if_neg h0] at hcopy
    cases hcopy
    rw [hresult, CallState.at_put, if_pos rfl, hint] at hpos
    exact absurd hpos h0

/-- **What `SC_Write` does**, if `SysWrite` returns. -/
theorem scWrite_spec (hl : l.Installed s.machine) (h : scWrite S.toServices s = .ok () s') :
    ∃ str, ReadsString (l.bytesFrom s.machine (s.at 4).toNat) (s.at 5).toInt.toNat str ∧
      ∀ result k, s.kernel.sysWrite str (s.at 5).toInt (s.at 6).toInt = .ok (result, k) →
        s'.at 2 = BitVec.ofInt 32 result ∧ s'.kernel.output = k.output ∧
          (2 ≤ (s.at 6).toInt → s'.kernel = k) := by
  unfold scWrite at h
  rw [readArgs_eq] at h
  obtain ⟨str, s₁, huser, h⟩ := bind_eq_ok h
  obtain ⟨-, hstr, hs₁⟩ := user2System_spec hl huser
  refine ⟨str, hstr, fun result k hwrite => ?_⟩
  rw [← hs₁.kernel] at hwrite
  obtain ⟨buffer, s₂, hserve, hs₂⟩ := S.serve_write hwrite
  have hreply : serviceResult S.toServices (.sysWrite str (s.at 5) (s.at 6)) s₁
      = .ok () (s₂.put 2 (BitVec.ofInt 32 result) (by decide)) := by
    unfold serviceResult
    rw [bind_ok (service_of_returned hserve)]
    exact writeRegister_eq (by decide) _ s₂
  rw [bind_ok hreply] at h
  obtain ⟨hkernel, hresult, -⟩ := increasePC_spec (l := l) h
  refine ⟨?_, ?_, fun hid => ?_⟩
  · rw [hresult, CallState.at_put, if_pos rfl]
  · rw [hkernel]
    exact hs₂.output
  · rw [hkernel]
    exact hs₂.kernel hid

end Calls

/-! ### What the loops do to the bytes of a read -/

section Bytes

variable {user : ℕ → Option UInt8} {bytes str : List UInt8} {size : ℕ}

/-- The user's buffer after `System2User` of `buffer`, at most `size + 1` bytes. -/
def afterCopy (user : ℕ → Option UInt8) (size : ℕ) (buffer : List UInt8) (i : ℕ) : Option UInt8 :=
  if i < size + 1 ∧ i ≤ (buffer.takeWhile (· ≠ 0)).length then some (buffer.getD i 0) else user i

/-- The user's buffer has these bytes, and the old ones behind them. -/
def Holds (user' user : ℕ → Option UInt8) (bytes : List UInt8) : Prop :=
  (∀ i < bytes.length, user' i = bytes[i]?) ∧ ∀ i, bytes.length ≤ i → user' i = user i

/-- The bytes that the two loops destroy are such that it does not matter. -/
structure Harmless (user : ℕ → Option UInt8) (bytes : List UInt8) (size : ℕ) : Prop where
  /-- The bytes behind a NUL, which are not delivered, are there already. -/
  behind : ∀ i j, j < i → i < bytes.length → bytes[j]? = some 0 → user i = bytes[i]?
  /-- The NUL that is put behind the bytes is there already, if there is one in front of it. -/
  after : 0 ∉ bytes → (∃ j < bytes.length, user j = some 0) → user bytes.length = some 0
  /-- Otherwise there is one in the rest of the buffer or right behind it. -/
  rest : 0 ∉ bytes → (∀ j < bytes.length, user j ≠ some 0) →
    ∃ j, bytes.length ≤ j ∧ j ≤ size ∧ user j = some 0

theorem ReadsString.user_ne_zero (h : ReadsString user size str) {j : ℕ} (hj : j < str.length) :
    user j ≠ some 0 := by
  rw [h.bytes_eq j hj, List.getElem?_eq_getElem hj]
  intro h0
  exact h.ne_zero (Option.some.inj h0 ▸ List.getElem_mem hj)

theorem ReadsString.length_le_of_zero (h : ReadsString user size str) {j : ℕ}
    (hj : user j = some 0) : str.length ≤ j :=
  Nat.le_of_not_lt fun hlt => h.user_ne_zero hlt hj

theorem ReadsString.length_le (h : ReadsString user size str) : str.length ≤ size :=
  h.stops.elim le_of_eq fun h => h.1.le

theorem takes_all {bytes : List UInt8} (h : 0 ∉ bytes) : ∀ b ∈ bytes, decide (b ≠ 0) = true := by
  intro b hb
  apply decide_eq_true
  rintro rfl
  exact h hb

/-- With a NUL among the bytes, the copy ends there. -/
theorem afterCopy_of_mem (user : ℕ → Option UInt8) (hlen : bytes.length ≤ size) (h0 : 0 ∈ bytes)
    (rest : List UInt8) :
    ∃ p < bytes.length, bytes[p]? = some 0 ∧ (∀ j, bytes[j]? = some 0 → p ≤ j) ∧
      ∀ i, afterCopy user size (bytes ++ rest) i = if i ≤ p then bytes[i]? else user i := by
  obtain ⟨front, back, hbytes, hfront⟩ := List.eq_append_cons_of_mem h0
  have htake : (bytes ++ rest).takeWhile (· ≠ 0) = front := by
    rw [hbytes, List.append_assoc, List.takeWhile_append_of_pos (takes_all hfront),
      List.cons_append, List.takeWhile_cons_of_neg (by simp), List.append_nil]
  have hlt : front.length < bytes.length := by
    rw [hbytes, List.length_append, List.length_cons]
    omega
  refine ⟨front.length, hlt, ?_, fun j hj => ?_, fun i => ?_⟩
  · rw [hbytes, List.getElem?_append_right le_rfl, Nat.sub_self]
    rfl
  · by_contra hlt'
    rw [hbytes, List.getElem?_append_left (by omega)] at hj
    exact hfront (List.mem_of_getElem? hj)
  · unfold afterCopy
    rw [htake]
    by_cases hi : i ≤ front.length
    · have hi' : i < bytes.length := by omega
      rw [if_pos (by omega), if_pos hi, List.getD_append _ _ _ _ hi', List.getD_eq_getElem _ _ hi',
        List.getElem?_eq_getElem hi']
    · rw [if_neg (by omega), if_neg hi]

/-- Without one, it goes on with what is behind the bytes. -/
theorem afterCopy_of_notMem (user : ℕ → Option UInt8) (hlen : bytes.length ≤ size) (h0 : 0 ∉ bytes)
    (rest : List UInt8) :
    (∀ i < bytes.length, afterCopy user size (bytes ++ rest) i = bytes[i]?) ∧
    ∀ j, afterCopy user size (bytes ++ rest) (bytes.length + j) =
      if bytes.length + j < size + 1 ∧ j ≤ (rest.takeWhile (· ≠ 0)).length then some (rest.getD j 0)
      else user (bytes.length + j) := by
  have htake : ((bytes ++ rest).takeWhile (· ≠ 0)).length =
      bytes.length + (rest.takeWhile (· ≠ 0)).length := by
    rw [List.takeWhile_append_of_pos (takes_all h0), List.length_append]
  unfold afterCopy
  rw [htake]
  refine ⟨fun i hi => ?_, fun j => ?_⟩
  · rw [if_pos (by omega), List.getD_append _ _ _ _ hi, List.getD_eq_getElem _ _ hi,
      List.getElem?_eq_getElem hi]
  · rw [List.getD_append_right _ _ _ _ (Nat.le_add_right ..), Nat.add_sub_cancel_left]
    simp only [Nat.add_le_add_iff_left]

/-- What `User2System` leaves of the string behind the bytes is what the user has there. -/
theorem ReadsString.drop_getD (h : ReadsString user size str) {n j : ℕ}
    (hj : j < (str.drop n).length) : some ((str.drop n).getD j 0) = user (n + j) := by
  rw [List.length_drop] at hj
  have hlt : n + j < str.length := by omega
  rw [h.bytes_eq _ hlt, List.getD_eq_getElem?_getD, List.getElem?_drop,
    List.getElem?_eq_getElem hlt]
  rfl

/-- With a NUL among the bytes, what is behind it is not delivered. -/
theorem holds_iff_of_mem (hlen : bytes.length ≤ size) (h0 : 0 ∈ bytes) (rest : List UInt8) :
    Holds (afterCopy user size (bytes ++ rest)) user bytes ↔
      ∀ i j, j < i → i < bytes.length → bytes[j]? = some 0 → user i = bytes[i]? := by
  obtain ⟨p, hp, hzero, hfirst, hcopy⟩ := afterCopy_of_mem user hlen h0 rest
  unfold Holds
  simp only [hcopy]
  constructor
  · rintro ⟨hbytes, -⟩ i j hji hi hj
    have hpj := hfirst j hj
    have hbyte := hbytes i hi
    rwa [if_neg (by omega)] at hbyte
  · intro h
    refine ⟨fun i hi => ?_, fun i hi => if_neg (by omega)⟩
    split
    · rfl
    · exact h i p (by omega) hi hzero

/-- Without one, a NUL is put behind the bytes and what is left of the string. -/
theorem holds_iff_of_notMem (hlen : bytes.length ≤ size) (h0 : 0 ∉ bytes)
    (hstr : ReadsString user size str) :
    Holds (afterCopy user size (bytes ++ str.drop bytes.length)) user bytes ↔
      user (max bytes.length str.length) = some 0 := by
  obtain ⟨hfront, hback⟩ := afterCopy_of_notMem user hlen h0 (str.drop bytes.length)
  have hnul : 0 ∉ str.drop bytes.length := fun h => hstr.ne_zero (List.mem_of_mem_drop h)
  have hsize : str.length ≤ size := hstr.length_le
  have hmax : max bytes.length str.length = bytes.length + (str.drop bytes.length).length := by
    rw [List.length_drop]
    omega
  rw [List.takeWhile_eq_self_iff.mpr (takes_all hnul)] at hback
  rw [hmax]
  constructor
  · rintro ⟨-, hrest⟩
    rw [← hrest _ (Nat.le_add_right ..), hback, if_pos (by omega), List.getD_eq_default _ _ le_rfl]
  · intro hz
    refine ⟨hfront, fun i hi => ?_⟩
    obtain ⟨j, rfl⟩ := Nat.exists_eq_add_of_le hi
    rw [hback]
    split
    · rename_i hj
      rcases hj.2.lt_or_eq with hlt | rfl
      · exact hstr.drop_getD hlt
      · rw [List.getD_eq_default _ _ le_rfl, hz]
    · rfl

/-- **The bytes of a read survive the two loops if and only if these are harmless.** -/
theorem holds_iff_harmless (hlen : bytes.length ≤ size) (hstr : ReadsString user size str) :
    Holds (afterCopy user size (bytes ++ str.drop bytes.length)) user bytes ↔
      Harmless user bytes size := by
  by_cases h0 : 0 ∈ bytes
  · rw [holds_iff_of_mem hlen h0]
    exact ⟨fun h => ⟨h, absurd h0, absurd h0⟩, Harmless.behind⟩
  · rw [holds_iff_of_notMem hlen h0 hstr]
    constructor
    · intro hz
      refine ⟨fun i j _ _ hj => absurd (List.mem_of_getElem? hj) h0, ?_, ?_⟩
      · rintro - ⟨j, hj, hj0⟩
        have hle := hstr.length_le_of_zero hj0
        rwa [Nat.max_eq_left (by omega)] at hz
      · intro _ _
        have hsize : str.length ≤ size := hstr.length_le
        exact ⟨_, Nat.le_max_left .., by omega, hz⟩
    · intro h
      rcases hstr.stops with hfull | ⟨hlt, hz⟩
      · -- No NUL in the buffer: it must be right behind.
        obtain ⟨j, hlo, hhi, hj0⟩ := h.rest h0 fun j hj => hstr.user_ne_zero (by omega)
        have hj := hstr.length_le_of_zero hj0
        rwa [show max bytes.length str.length = j by omega]
      · by_cases hle : bytes.length ≤ str.length
        · rwa [Nat.max_eq_right hle]
        · rw [Nat.max_eq_left (by omega)]
          exact h.after h0 ⟨str.length, by omega, hz⟩

/-- The characters that `SysWrite` gets are the user's if and only if there are only zeros behind
the first NUL. -/
theorem firstChars_iff (hstr : ReadsString user size str) :
    (∀ i < size, (firstChars str size)[i]? = user i) ↔
      ∀ i j, j < i → i < size → user j = some 0 → user i = some 0 := by
  have hchars : ∀ i < size, (firstChars str size)[i]? = some (str.getD i 0) := by
    intro i hi
    unfold firstChars
    rw [List.getElem?_map, List.getElem?_range hi]
    rfl
  constructor
  · intro h i j hji hi hj
    have hle := hstr.length_le_of_zero hj
    rw [← h i hi, hchars i hi, List.getD_eq_default _ _ (by omega)]
  · intro h i hi
    rw [hchars i hi]
    by_cases hlt : i < str.length
    · rw [hstr.bytes_eq i hlt, List.getD_eq_getElem _ _ hlt, List.getElem?_eq_getElem hlt]
    · rw [List.getD_eq_default _ _ (by omega)]
      rcases hstr.stops with hfull | ⟨-, hz⟩
      · omega
      · by_cases heq : i = str.length
        · rw [heq, hz]
        · exact (h i str.length (by omega) hi hz).symm

end Bytes

/-- Seen from `virtAddr`, a call that ends with `System2User` has done the copy; in front of it
nothing is written. -/
theorem bytesFrom_of_writtenFrom {l : PageMap} {m m' : MachineState} {virtAddr size : ℕ}
    {buffer : List UInt8} (h : l.byteAt m' = writtenFrom virtAddr (size + 1) buffer (l.byteAt m)) :
    l.bytesFrom m' virtAddr = afterCopy (l.bytesFrom m virtAddr) size buffer ∧
      ∀ v < virtAddr, l.byteAt m' v = l.byteAt m v := by
  constructor
  · funext i
    unfold PageMap.bytesFrom
    rw [h, writtenFrom_add]
    rfl
  · intro v hv
    rw [h]
    exact if_neg fun h => absurd h.1 (by omega)

/-! ### `SC_Read` -/

/-- The user's buffer has the next bytes of the file, as many as the call returns, and no other user
byte has changed. -/
structure Delivers (l : PageMap) (s s' : CallState FileKernel) : Prop where
  bytes : ∀ i < (s'.at 2).toInt.toNat,
    l.bytesFrom s'.machine (s.at 4).toNat i =
    (s.kernel.next (s.at 6).toInt (s'.at 2).toInt.toNat)[i]?
  others : ∀ v, v < (s.at 4).toNat ∨ (s.at 4).toNat + (s'.at 2).toInt.toNat ≤ v →
    l.byteAt s'.machine v = l.byteAt s.machine v

/-- The two loops do no harm to the bytes that the call is going to read. -/
def ReadHarmless (l : PageMap) (s : CallState FileKernel) : Prop :=
  Harmless (l.bytesFrom s.machine (s.at 4).toNat)
    (s.kernel.next (s.at 6).toInt (s.at 5).toInt.toNat) (s.at 5).toInt.toNat

/-- **`SC_Read` delivers exactly the bytes it has read if and only if** the bytes of the file behind
the first NUL are in the user's buffer already, and so is the NUL that is written behind the bytes
if there is none among them. -/
theorem read_delivers_iff (S : FileServices) (l : PageMap) (s s' : CallState FileKernel)
    (hl : l.Installed s.machine) (hsize : 0 ≤ (s.at 5).toInt)
    (hoff : ∀ f, s.kernel.descriptor (s.at 6).toInt = some f → 0 ≤ f.currentOffset)
    (hcode : scOf (s.at 2) = some .read)
    (hret : exceptionHandler S.toServices .syscallException s = .ok () s')
    (hpos : 0 < (s'.at 2).toInt) : Delivers l s s' ↔ ReadHarmless l s := by
  rw [exceptionHandler_syscall, hcode] at hret
  obtain ⟨bytes, str, hbytes, hstr, hcount, hview⟩ := scRead_spec hl hsize hoff hret hpos
  have hlen : bytes.length ≤ (s.at 5).toInt.toNat := by
    rw [hbytes]
    exact s.kernel.length_next_le ..
  have hk : (s'.at 2).toInt.toNat = bytes.length := by omega
  have hnext : s.kernel.next (s.at 6).toInt bytes.length = bytes := by
    rw [hbytes]
    exact s.kernel.next_length ..
  obtain ⟨hcopy, hlow⟩ := bytesFrom_of_writtenFrom hview
  unfold ReadHarmless
  rw [← hbytes, ← holds_iff_harmless hlen hstr, ← hcopy]
  constructor
  · rintro ⟨hin, hout⟩
    rw [hk, hnext] at hin
    rw [hk] at hout
    exact ⟨hin, fun i hi => hout _ (.inr (Nat.add_le_add_left hi _))⟩
  · rintro ⟨hin, hout⟩
    refine ⟨?_, fun v hv => ?_⟩
    · rw [hk, hnext]
      exact hin
    · rw [hk] at hv
      by_cases hlt : v < (s.at 4).toNat
      · exact hlow v hlt
      · obtain ⟨i, rfl⟩ := Nat.exists_eq_add_of_le (Nat.le_of_not_lt hlt)
        exact hout i (by omega)

/-- A page at the address 0. -/
def onePage : PageMap := ⟨[0], List.nodup_singleton 0, by decide⟩

/-- The system call `type` with the page as its buffer. The console's output and a file that may be
read and written are open, in the entries 1 and 2. -/
def fileCall (type size id : BitVec 32) (page : List UInt8) (file : HostFile) :
    CallState FileKernel where
  kernel :=
    { fileSystem :=
        { table := fun i =>
            if i.val = 1 then some ⟨-1, 4, 0, 1⟩ else if i.val = 2 then some ⟨-1, 5, 0, 0⟩ else none
          hostOpen := {4, 5} }
      inode := fun fd => fd
      contents := fun _ => file
      input := fun _ => 0
      output := [] }
  machine :=
    { registers := Vector.ofFn fun i =>
        if i.val = 2 then type else if i.val = 5 then size else if i.val = 6 then id else 0
      mainMemory := fun a => page.getD a 1
      tables := ⟨none, some [⟨0, 0, true, false, false, false⟩], 1⟩ }

theorem onePage_installed (type size id : BitVec 32) (page : List UInt8) (file : HostFile) :
    onePage.Installed (fileCall type size id page file).machine :=
  ⟨_, rfl, rfl⟩

/-- What is seen after the call, if it returns. -/
def observe (P : CallState FileKernel → Bool) (s : CallState FileKernel) : Bool :=
  match exceptionHandler singleThread.toServices .syscallException s with
  | .ok _ s' => P s'
  | .error _ _ => false

theorem exists_of_observe {s : CallState FileKernel} (P : CallState FileKernel → Prop)
    [DecidablePred P] (h : observe (fun s' => decide (P s')) s = true) :
    ∃ s', exceptionHandler singleThread.toServices .syscallException s = .ok () s' ∧ P s' := by
  unfold observe at h
  split at h
  · rename_i s' hs'
    exact ⟨s', hs', of_decide_eq_true h⟩
  · cases h

/-- Two bytes are read into a buffer of four, the last two of which are zero. -/
theorem read_delivers_iff_text :
    ∃ s', exceptionHandler singleThread.toServices .syscallException
        (fileCall 7 4 2 [1, 1, 0, 0] [65, 66]) = .ok () s' ∧ s'.at 2 = 2 ∧
      Delivers onePage (fileCall 7 4 2 [1, 1, 0, 0] [65, 66]) s' := by
  obtain ⟨s', hret, htwo⟩ := exists_of_observe (s := fileCall 7 4 2 [1, 1, 0, 0] [65, 66])
    (fun s' => s'.at 2 = 2) (by decide +kernel)
  refine ⟨s', hret, htwo, (read_delivers_iff singleThread onePage _ s' (onePage_installed ..)
    (by decide +kernel) ?_ (by decide +kernel) hret (by rw [htwo]; decide)).mpr ?_⟩
  · intro f hf
    have hentry : (fileCall 7 4 2 [1, 1, 0, 0] [65, 66]).kernel.descriptor
        ((fileCall 7 4 2 [1, 1, 0, 0] [65, 66]).at 6).toInt = some ⟨-1, 5, 0, 0⟩ := by
        decide +kernel
    cases hentry.symm.trans hf
    exact le_rfl
  · unfold ReadHarmless
    rw [show (fileCall 7 4 2 [1, 1, 0, 0] [65, 66]).kernel.next _ _ = [65, 66] by decide +kernel]
    refine ⟨fun i j _ _ hj => ?_, fun _ _ => by decide +kernel, fun _ _ => ?_⟩
    · exact absurd (List.mem_of_getElem? hj) (by decide)
    · exact ⟨2, le_rfl, by decide +kernel, by decide +kernel⟩

/-- Two bytes are read into a buffer of two: the byte behind it is overwritten. A byte behind a NUL
is counted and not delivered. -/
theorem read_not_delivered :
    (∃ s', exceptionHandler singleThread.toServices .syscallException (fileCall 7 2 2 [] [65, 66])
        = .ok () s' ∧ s'.at 2 = 2 ∧ onePage.byteAt (fileCall 7 2 2 [] [65, 66]).machine 2 = some 1 ∧
      onePage.byteAt s'.machine 2 = some 0 ∧ ¬ Delivers onePage (fileCall 7 2 2 [] [65, 66]) s') ∧
    ∃ s', exceptionHandler singleThread.toServices .syscallException (fileCall 7 3 2 [] [65, 0, 66])
        = .ok () s' ∧ s'.at 2 = 3 ∧ onePage.byteAt s'.machine 2 = some 1 ∧
      ¬ Delivers onePage (fileCall 7 3 2 [] [65, 0, 66]) s' := by
  constructor
  · obtain ⟨s', hret, htwo, hbyte⟩ := exists_of_observe (s := fileCall 7 2 2 [] [65, 66])
      (fun s' => s'.at 2 = 2 ∧ onePage.byteAt s'.machine 2 = some 0) (by decide +kernel)
    have hold : onePage.byteAt (fileCall 7 2 2 [] [65, 66]).machine 2 = some 1 := by decide +kernel
    refine ⟨s', hret, htwo, hold, hbyte, fun h => ?_⟩
    have hsame := h.others 2 (by rw [htwo]; decide +kernel)
    rw [hbyte, hold] at hsame
    cases hsame
  · obtain ⟨s', hret, hthree, hbyte⟩ := exists_of_observe (s := fileCall 7 3 2 [] [65, 0, 66])
      (fun s' => s'.at 2 = 3 ∧ onePage.byteAt s'.machine 2 = some 1) (by decide +kernel)
    refine ⟨s', hret, hthree, hbyte, fun h => ?_⟩
    have hlost := h.bytes 2 (by rw [hthree]; decide)
    have hnext : ((fileCall 7 3 2 [] [65, 0, 66]).kernel.next
        ((fileCall 7 3 2 [] [65, 0, 66]).at 6).toInt (3 : BitVec 32).toInt.toNat)[2]? =
        some 66 := by
      decide +kernel
    have haddr : ((fileCall 7 3 2 [] [65, 0, 66]).at 4).toNat + 2 = 2 := by decide +kernel
    rw [hthree, hnext, PageMap.bytesFrom, haddr, hbyte] at hlost
    cases hlost

/-! ### `SC_Write` -/

/-- The call returns the number of bytes that it was given. The console shows the user's bytes, or
the file has them from its offset on and is otherwise as it was. -/
structure Stores (l : PageMap) (s s' : CallState FileKernel) : Prop where
  result : s'.at 2 = s.at 5
  console : (s.at 6).toInt = 1 → ∃ bytes, bytes.length = (s.at 5).toInt.toNat ∧
    s'.kernel.output = s.kernel.output ++ bytes ∧
    ∀ i < (s.at 5).toInt.toNat, bytes[i]? = l.bytesFrom s.machine (s.at 4).toNat i
  file : (s.at 6).toInt ≠ 1 → ∀ f, s.kernel.descriptor (s.at 6).toInt = some f →
    (∀ i < (s.at 5).toInt.toNat, (s'.kernel.hostFile f)[f.currentOffset.toNat + i]?
      = l.bytesFrom s.machine (s.at 4).toNat i) ∧
    (∀ i < (s.kernel.hostFile f).length, i < f.currentOffset.toNat ∨
      f.currentOffset.toNat + (s.at 5).toInt.toNat ≤ i →
      (s'.kernel.hostFile f)[i]? = (s.kernel.hostFile f)[i]?) ∧
    (s'.kernel.hostFile f).length =
      max (s.kernel.hostFile f).length (f.currentOffset.toNat + (s.at 5).toInt.toNat)

/-- The descriptor is open and not the console's input, and behind a NUL of the user's buffer there
are only others. -/
structure WriteHarmless (l : PageMap) (s : CallState FileKernel) : Prop where
  isOpen : s.kernel.descriptor (s.at 6).toInt ≠ none
  notInput : (s.at 6).toInt ≠ 0
  zeros : ∀ i j, j < i → i < (s.at 5).toInt.toNat →
    l.bytesFrom s.machine (s.at 4).toNat j = some 0 →
    l.bytesFrom s.machine (s.at 4).toNat i = some 0

section Stores

variable {l : PageMap} {s s' : CallState FileKernel} {chars : List UInt8}

theorem stores_console_iff (hid : (s.at 6).toInt = 1) (hresult : s'.at 2 = s.at 5)
    (hlen : chars.length = (s.at 5).toInt.toNat)
    (houtput : s'.kernel.output = s.kernel.output ++ chars) :
    Stores l s s' ↔
      ∀ i < (s.at 5).toInt.toNat, chars[i]? = l.bytesFrom s.machine (s.at 4).toNat i := by
  constructor
  · intro h
    obtain ⟨bytes, -, hbytes, huser⟩ := h.console hid
    rw [houtput] at hbytes
    rwa [← List.append_cancel_left hbytes] at huser
  · intro h
    exact ⟨hresult, fun _ => ⟨chars, hlen, houtput, h⟩, fun hne => absurd hid hne⟩

theorem stores_file_iff (hid : (s.at 6).toInt ≠ 1) (hsize : 0 < (s.at 5).toInt) {f : OpenFile}
    (hf : s.kernel.descriptor (s.at 6).toInt = some f) (hresult : s'.at 2 = s.at 5)
    (hlen : chars.length = (s.at 5).toInt.toNat)
    (hfile : s'.kernel.hostFile f = (s.kernel.hostFile f).writeAt chars f.currentOffset.toNat) :
    Stores l s s' ↔
      ∀ i < (s.at 5).toInt.toNat, chars[i]? = l.bytesFrom s.machine (s.at 4).toNat i := by
  have hchars : ∀ i < (s.at 5).toInt.toNat,
      (s'.kernel.hostFile f)[f.currentOffset.toNat + i]? = chars[i]? := by
    intro i hi
    rw [hfile]
    exact HostFile.getElem?_writeAt (by omega)
  constructor
  · intro h i hi
    rw [← hchars i hi]
    exact (h.file hid f hf).1 i hi
  · intro h
    refine ⟨hresult, fun hone => absurd hone hid, fun _ f' hf' => ?_⟩
    cases hf.symm.trans hf'
    refine ⟨fun i hi => (hchars i hi).trans (h i hi), fun i hi hout => ?_, ?_⟩
    · rw [hfile]
      exact HostFile.getElem?_writeAt_of_notMem hi (by omega)
    · rw [hfile, HostFile.length_writeAt (List.ne_nil_of_length_pos (by omega)), hlen]

end Stores

/-- **`SC_Write` to the console or to a file that is open for reading and writing stores the user's
bytes if and only if** the descriptor is not the console's input, has not been closed, and all
bytes behind the first NUL are NUL. -/
theorem write_stores_iff (S : FileServices) (l : PageMap) (s s' : CallState FileKernel)
    (hl : l.Installed s.machine) (hsize : 0 < (s.at 5).toInt)
    (hopen : (s.at 6).toInt = 1 ∨ ∃ f, s.kernel.descriptor (s.at 6).toInt = some f ∧
      f.fileType = 0 ∧ 0 ≤ f.currentOffset)
    (hcode : scOf (s.at 2) = some .write)
    (hret : exceptionHandler S.toServices .syscallException s = .ok () s') :
    Stores l s s' ↔ WriteHarmless l s := by
  rw [exceptionHandler_syscall, hcode] at hret
  obtain ⟨str, hstr, hwrite⟩ := scWrite_spec hl hret
  -- `SysWrite` refuses the call, or writes to the console, or to a file.
  by_cases hrefused : s.kernel.descriptor (s.at 6).toInt = none ∨ (s.at 6).toInt = 0
  · obtain ⟨hresult, -⟩ := hwrite _ _ (FileKernel.sysWrite_refused hrefused)
    refine iff_of_false (fun h => ?_) fun h => hrefused.elim h.isOpen h.notInput
    rw [← h.result, hresult] at hsize
    exact absurd hsize (by decide)
  · obtain ⟨hsome, hnotInput⟩ := not_or.mp hrefused
    have hharmless : WriteHarmless l s ↔ ∀ i < (s.at 5).toInt.toNat,
        (firstChars str (s.at 5).toInt.toNat)[i]? = l.bytesFrom s.machine (s.at 4).toNat i := by
      rw [firstChars_iff hstr]
      exact ⟨WriteHarmless.zeros, fun h => ⟨hsome, hnotInput, h⟩⟩
    rw [hharmless]
    by_cases hconsole : (s.at 6).toInt = 1
    · rw [hconsole] at hsome hwrite
      obtain ⟨hresult, houtput, -⟩ := hwrite _ _ (FileKernel.sysWrite_console hsome)
      exact stores_console_iff hconsole (hresult.trans BitVec.ofInt_toInt)
        (length_firstChars ..) houtput
    · obtain ⟨f', hf', htype, hoff⟩ := hopen.resolve_left hconsole
      have hid : 2 ≤ (s.at 6).toInt := by
        have := FileKernel.mem_of_descriptor hf'
        omega
      obtain ⟨k, hk, hfile⟩ := FileKernel.sysWrite_file str hsize hid hf' (by omega) hoff
      obtain ⟨hresult, -, hkernel⟩ := hwrite _ _ hk
      rw [← hkernel hid] at hfile
      exact stores_file_iff hconsole hsize hf' (hresult.trans BitVec.ofInt_toInt)
        (length_firstChars ..) hfile

/-- A string is written with its NUL. -/
theorem write_stores_iff_text :
    ∃ s', exceptionHandler singleThread.toServices .syscallException
        (fileCall 8 3 2 [65, 66, 0] [9, 9, 9, 9]) = .ok () s' ∧
      Stores onePage (fileCall 8 3 2 [65, 66, 0] [9, 9, 9, 9]) s' := by
  obtain ⟨s', hret, -⟩ := exists_of_observe (s := fileCall 8 3 2 [65, 66, 0] [9, 9, 9, 9])
    (fun _ => True) (by decide +kernel)
  have hentry : (fileCall 8 3 2 [65, 66, 0] [9, 9, 9, 9]).kernel.descriptor
      ((fileCall 8 3 2 [65, 66, 0] [9, 9, 9, 9]).at 6).toInt = some ⟨-1, 5, 0, 0⟩ := by
      decide +kernel
  refine ⟨s', hret, (write_stores_iff singleThread onePage _ s' (onePage_installed ..)
    (by decide +kernel) (.inr ⟨_, hentry, rfl, le_rfl⟩) (by decide +kernel) hret).mpr ?_⟩
  refine ⟨by rw [hentry]; simp, by decide +kernel, fun i j hji hi hj => ?_⟩
  have hzeros : ∀ i < 3, ∀ j < i,
      onePage.bytesFrom (fileCall 8 3 2 [65, 66, 0] [9, 9, 9, 9]).machine 0 j ≠ some 0 := by
    decide +kernel
  exact absurd hj (hzeros i hi j hji)

/-- The bytes `65, 0, 66` are written to the file and to the console as `65, 0, 0`. -/
theorem write_not_stored :
    (∃ s', exceptionHandler singleThread.toServices .syscallException
      (fileCall 8 3 2 [65, 0, 66] [])
        = .ok () s' ∧ s'.at 2 = 3 ∧ s'.kernel.contents 5 = [65, 0, 0] ∧
      ¬ Stores onePage (fileCall 8 3 2 [65, 0, 66] []) s') ∧
    ∃ s', exceptionHandler singleThread.toServices .syscallException (fileCall 8 3 1 [65, 0, 66] [])
        = .ok () s' ∧ s'.at 2 = 3 ∧ s'.kernel.output = [65, 0, 0] ∧
      ¬ Stores onePage (fileCall 8 3 1 [65, 0, 66] []) s' := by
  constructor
  · obtain ⟨s', hret, hthree, hfile, hinode⟩ :=
      exists_of_observe (s := fileCall 8 3 2 [65, 0, 66] [])
        (fun s' => s'.at 2 = 3 ∧ s'.kernel.contents 5 = [65, 0, 0] ∧ s'.kernel.inode 5 = 5)
        (by decide +kernel)
    refine ⟨s', hret, hthree, hfile, fun h => ?_⟩
    have hlost :=
      (h.file (by decide +kernel) ⟨-1, 5, 0, 0⟩ (by decide +kernel)).1 2 (by decide +kernel)
    have huser : onePage.bytesFrom (fileCall 8 3 2 [65, 0, 66] []).machine
      ((fileCall 8 3 2 [65, 0, 66] []).at 4).toNat 2 = some 66 := by decide +kernel
    rw [FileKernel.hostFile, hinode, hfile, huser] at hlost
    cases hlost
  · obtain ⟨s', hret, hthree, houtput⟩ := exists_of_observe (s := fileCall 8 3 1 [65, 0, 66] [])
      (fun s' => s'.at 2 = 3 ∧ s'.kernel.output = [65, 0, 0]) (by decide +kernel)
    refine ⟨s', hret, hthree, houtput, fun h => ?_⟩
    obtain ⟨bytes, -, hbytes, hall⟩ := h.console (by decide +kernel)
    have hlost := hall 2 (by decide +kernel)
    have hshown : [65, 0, 0] = bytes := houtput.symm.trans hbytes
    have huser : onePage.bytesFrom (fileCall 8 3 1 [65, 0, 66] []).machine
      ((fileCall 8 3 1 [65, 0, 66] []).at 4).toNat 2 = some 66 := by decide +kernel
    rw [← hshown, huser] at hlost
    cases hlost

end Nachos.UserProg
