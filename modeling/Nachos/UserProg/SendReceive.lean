import Nachos.UserProg.SocketCalls

namespace Nachos.UserProg

open Base FileSys.Stub Machine UserProg.Exception

/-!
# UserProg — what `SC_Send` sends, and where `SC_Receive` writes

The length that the user gives is not used to move the bytes: `send` is called with the string that
`User2System` has copied, and `read` with 1024. It is only compared with the result afterwards.

* `send_as_asked_iff` — `SC_Send` sends the bytes that were asked for if and only if they are the
  whole string at the address, and there is no `NULL` entry in front of the socket's;
* `receive_respects_buffers_iff` — `SC_Receive` stays in the buffer of the kernel and in the one of
  the user if and only if the message is short enough for the first, and what `strlen` finds in it
  happens to do no harm to the second.
-/

/-! ### `SC_Send` -/

/-- The length of the string that `User2System` copies. -/
theorem ReadsString.length_eq_iff {user : ℕ → Option UInt8} {size n : ℕ} {str : List UInt8}
    (h : ReadsString user size str) (hn : n ≤ size) :
    str.length = n ↔ (∀ j < n, user j ≠ some 0) ∧ (n = size ∨ user n = some 0) := by
  constructor
  · rintro rfl
    exact ⟨fun j => h.user_ne_zero, h.stops.imp id And.right⟩
  · rintro ⟨hall, hend⟩
    rcases lt_trichotomy str.length n with hlt | heq | hgt
    · -- It stops in front of `n` at a NUL.
      rcases h.stops with hfull | ⟨-, hz⟩
      · omega
      · exact absurd hz (hall _ hlt)
    · exact heq
    · -- It does not go on behind `n`.
      have hsize := h.length_le
      rcases hend with hfull | hz
      · omega
      · exact absurd hz (h.user_ne_zero hgt)

/-- The call has returned, the host has been given the user's bytes, as many as the user has said,
and the result is what the host has answered; this is `-1` only if `send` has failed. -/
structure SendsAsAsked (l : PageMap) (i : Fin maxFile) (s : CallState SocketKernel)
    (returned : Bool) (s' : CallState SocketKernel) : Prop where
  returns : returned = true
  sent : ∃ bytes, bytes.length = (s.at 6).toInt.toNat ∧
    (∀ j < bytes.length, bytes[j]? = l.bytesFrom s.machine (s.at 5).toNat j) ∧
    s'.kernel.sent = s.kernel.sent ++ [((s.at 4).toInt - plusSocketId, bytes)] ∧
    (s'.at 2).toInt = s.kernel.sendAnswer i bytes
  failed : (s'.at 2).toInt = -1 → s.kernel.takes i = none

/-- The bytes are the whole string at the address, as far as `User2System` copies it, and the search
for the socket does not meet a `NULL` entry. -/
structure SendHarmless (l : PageMap) (i : Fin maxFile) (s : CallState SocketKernel) : Prop where
  front : ∀ j < i, s.kernel.fileSystem.table j ≠ none
  noNul : ∀ j < (s.at 6).toInt.toNat, l.bytesFrom s.machine (s.at 5).toNat j ≠ some 0
  ends : (s.at 6).toInt.toNat = 255 ∨
    l.bytesFrom s.machine (s.at 5).toNat (s.at 6).toInt.toNat = some 0

namespace SocketKernel

variable {k : SocketKernel} {i : ℕ} {message : List UInt8}

theorem sendAnswer_le (k : SocketKernel) (i : ℕ) (message : List UInt8) :
    -1 ≤ k.sendAnswer i message ∧ k.sendAnswer i message ≤ message.length := by
  unfold sendAnswer
  split <;> omega

theorem takes_of_sendAnswer (h : k.sendAnswer i message = -1) : k.takes i = none := by
  unfold sendAnswer at h
  split at h
  · assumption
  · omega

/-- `send` has been called with the message. -/
def withSent (k : SocketKernel) (socketDescriptor : Int) (message : List UInt8) : SocketKernel :=
  { k with sent := k.sent ++ [(socketDescriptor - plusSocketId, message)] }

end SocketKernel

/-- `SendSocketMessage` for a socket that is in one entry, with a string in the buffer. -/
theorem SocketAt.sendSocketMessage_looped {k : SocketKernel} {socketDescriptor : Int}
    {i : Fin maxFile}
    (h : SocketAt k.fileSystem socketDescriptor i) {str : List UInt8} (h0 : 0 ∉ str)
    (length : Int) :
    Looped k.fileSystem length i k (k.sendAnswer i str, k.withSent socketDescriptor str)
      (k.sendSocketMessage socketDescriptor str length) := by
  have hhost : SocketKernel.sendMessageToSocket (socketDescriptor - plusSocketId) str i k =
      (k.sendAnswer i str, k.withSent socketDescriptor str) := by
    rw [SocketKernel.sendMessageToSocket, List.takeWhile_eq_self_iff.mpr (takes_all h0)]
    rfl
  rw [← hhost]
  exact h.looped length _ k

section Send

variable {l : PageMap} {i : Fin maxFile} {s s' : CallState SocketKernel} {str : List UInt8}
  {returned : Bool}

theorem sendHarmless_iff (hstr : ReadsString (l.bytesFrom s.machine (s.at 5).toNat) 255 str)
    (hlength : (s.at 6).toInt.toNat ≤ 255) : SendHarmless l i s ↔
      (∀ j < i, s.kernel.fileSystem.table j ≠ none) ∧ str.length = (s.at 6).toInt.toNat := by
  rw [hstr.length_eq_iff hlength]
  exact ⟨fun h => ⟨h.front, h.noNul, h.ends⟩, fun h => ⟨h.1, h.2.1, h.2.2⟩⟩

/-- What has been sent is the string; so it can only be what was asked for if it has the right
length. -/
theorem SendsAsAsked.length_eq (h : SendsAsAsked l i s returned s')
    (hkernel : s'.kernel = s.kernel.withSent (s.at 4).toInt str) :
    str.length = (s.at 6).toInt.toNat := by
  obtain ⟨bytes, hbytes, -, hsent, -⟩ := h.sent
  rw [hkernel] at hsent
  have hlast : [((s.at 4).toInt - plusSocketId, bytes)] = [((s.at 4).toInt - plusSocketId, str)] :=
    List.append_cancel_left hsent.symm
  rw [List.cons.injEq, Prod.mk.injEq] at hlast
  rw [← hlast.1.2]
  exact hbytes

/-- If it has, the call does what it should. -/
theorem sendsAsAsked_of_returned (hstr : ReadsString (l.bytesFrom s.machine (s.at 5).toNat) 255 str)
    (hlen : str.length = (s.at 6).toInt.toNat)
    (hreply : Replied (s.kernel.withSent (s.at 4).toInt str) (.ok (s.kernel.sendAnswer i str))
      returned s') : SendsAsAsked l i s returned s' := by
  obtain ⟨hreturned, hresult⟩ := hreply.result _ rfl
  have hlen255 := hstr.length_le
  have hanswer := s.kernel.sendAnswer_le i str
  have hint : (s'.at 2).toInt = s.kernel.sendAnswer i str := by
    rw [hresult]
    exact toInt_ofInt (by unfold minInt; omega) (by unfold maxInt; omega)
  refine ⟨hreturned, ⟨str, hlen, fun j hj => (hstr.bytes_eq j hj).symm, ?_, hint⟩, ?_⟩
  · rw [hreply.kernel]
    rfl
  · intro hminus
    exact SocketKernel.takes_of_sendAnswer (hint.symm.trans hminus)

end Send

/-- **`SC_Send` on a socket that is open sends the bytes that it was asked to send if and only if**
there is no `NULL` entry in front of the socket's, there is no NUL among the bytes, and there is one
right behind them (or they are as many as `User2System` copies at most). -/
theorem send_as_asked_iff (S : SocketServices) (l : PageMap) (s s' : CallState SocketKernel)
    (returned : Bool) (hl : l.Installed s.machine)
    (hreach : stubSystem.Reachable s.kernel.fileSystem)
    (i : Fin maxFile) (f : OpenFile) (hi : s.kernel.fileSystem.table i = some f)
    (hsocket : f.isSocket = true) (hid : f.socketId = (s.at 4).toInt)
    (hlength : 0 ≤ (s.at 6).toInt ∧ (s.at 6).toInt ≤ maxLength)
    (hcode : scOf (s.at 2) = some .send) (hend : ending S.toServices s = some (returned, s')) :
    SendsAsAsked l i s returned s' ↔ SendHarmless l i s := by
  obtain ⟨str, hstr, hreply⟩ := scSend_spec hl hcode hend
  have hmax : maxLength = 255 := rfl
  have hat : SocketAt s.kernel.fileSystem (s.at 4).toInt i := by
    rw [← hid]
    exact socketAt_of_reachable hreach hi hsocket
  rw [sendHarmless_iff hstr (by omega)]
  have hlooped := hat.sendSocketMessage_looped hstr.ne_zero (s.at 6).toInt
  generalize s.kernel.sendSocketMessage (s.at 4).toInt str (s.at 6).toInt = out at hreply hlooped
  cases hlooped with
  | @null j hj hnone =>
    refine iff_of_false (fun h => ?_) fun h => h.1 j hj hnone
    cases h.returns.symm.trans (hreply.crashed _ rfl)
  | returned hfront =>
    constructor
    · intro h
      exact ⟨hfront, h.length_eq hreply.kernel⟩
    · rintro ⟨-, hlen⟩
      exact sendsAsAsked_of_returned hstr hlen hreply
  | tooLong _ hlt =>
    -- More has been sent than was asked for.
    have hlong : str.length ≠ (s.at 6).toInt.toNat := by
      have hanswer := s.kernel.sendAnswer_le i str
      omega
    exact iff_of_false (fun h => hlong (h.length_eq hreply.kernel)) fun h => hlong h.2

theorem exists_ending {s : CallState SocketKernel} (P : Bool → CallState SocketKernel → Prop)
    [∀ b s', Decidable (P b s')]
    (h : ((ending socketThread.toServices s).any fun p => decide (P p.1 p.2)) = true) :
    ∃ returned s', ending socketThread.toServices s = some (returned, s') ∧ P returned s' := by
  obtain ⟨⟨returned, s'⟩, hend, hP⟩ := (Option.any_eq_true _ _).mp h
  exact ⟨returned, s', hend, of_decide_eq_true hP⟩

/-- A table with a socket in each entry behind the console's. -/
def crowded : FileSystem where
  table i := if (i : ℕ) < 2 then FileSystem.started.table i else some ⟨120 + i, 60 + i, 0, 1⟩
  hostOpen := FileSystem.started.hostOpen ∪ Finset.Ico 22 40 ∪ Finset.Ico 42 60 ∪ Finset.Ico 62 80

theorem reachable_crowded : stubSystem.Reachable crowded := by
  obtain ⟨⟨table, hostOpen⟩, hs, rfl, rfl⟩ := stubSystem.reaches FileSystem.init_started
    ((List.range' 2 18).map fun i =>
      .call (.socketTCP (some (20 + i)) (some (40 + i)) (some (60 + i))))
    (fun s => s.table = crowded.table ∧ s.hostOpen = crowded.hostOpen) (by decide +kernel)
  exact hs

/-- A file has been opened in front of the socket, and closed again. -/
def gapped : FileSystem where
  table i := if (i : ℕ) = 3 then some ⟨108, 10, 0, 1⟩ else FileSystem.started.table i
  hostOpen := {0, 1, 2, 3, 4, 5, 6, 8, 9, 10}

theorem reachable_gapped : stubSystem.Reachable gapped := by
  obtain ⟨⟨table, hostOpen⟩, hs, rfl, rfl⟩ := stubSystem.reaches FileSystem.init_started
    [.call (.openFile "f" false (fun _ => false) (some 7)),
      .call (.socketTCP (some 8) (some 9) (some 10)), .call (.close 2)]
    (fun s => s.table = gapped.table ∧ s.hostOpen = gapped.hostOpen) (by decide +kernel)
  exact hs

/-- The system call `type` for a socket, with the page as the user's buffer, on a host that takes
all bytes and has the message for the socket. -/
def socketCall (fileSystem : FileSystem) (type id length : BitVec 32) (page : List UInt8)
    (message : Chunk) : CallState SocketKernel where
  kernel :=
    { fileSystem := fileSystem
      takes := fun _ => some 255
      incoming := fun _ => message
      heap := []
      sent := []
      stored := [] }
  machine :=
    { registers := Vector.ofFn fun i =>
        if i.val = 2 then type else if i.val = 4 then id else if i.val = 6 then length else 0
      mainMemory := fun a => page.getD a 1
      tables := ⟨none, some [⟨0, 0, true, false, false, false⟩], 1⟩ }

theorem socketCall_installed (fileSystem : FileSystem) (type id length : BitVec 32)
    (page : List UInt8)
    (message : Chunk) :
    onePage.Installed (socketCall fileSystem type id length page message).machine :=
  ⟨_, rfl, rfl⟩

/-- The message `"Hi"`. -/
def messageHi : Chunk := ⟨[72, 105], by decide⟩

/-- Two bytes are sent, with a NUL behind them. -/
theorem send_as_asked_hi : ∃ i : Fin maxFile, (i : ℕ) = 2 ∧ ∃ returned s',
    ending socketThread.toServices (socketCall crowded 45 122 2 [72, 105, 0] messageHi) =
        some (returned, s') ∧
      SendsAsAsked onePage i (socketCall crowded 45 122 2 [72, 105, 0] messageHi) returned s' := by
  obtain ⟨returned, s', hend, -⟩ := exists_ending
    (s := socketCall crowded 45 122 2 [72, 105, 0] messageHi) (fun _ _ => True) (by decide +kernel)
  refine ⟨⟨2, by decide⟩, rfl, returned, s', hend, ?_⟩
  refine (send_as_asked_iff socketThread onePage _ s' returned (socketCall_installed ..)
    reachable_crowded _ ⟨122, 62, 0, 1⟩ rfl rfl (by decide +kernel) (by decide +kernel)
    (by decide +kernel) hend).mpr ?_
  exact ⟨by decide +kernel, by decide +kernel, by decide +kernel⟩

/-- Of three bytes with a NUL in the middle, one is sent. Of a string of four bytes, two should be
sent; all are, and the call returns `-1`. With a `NULL` entry in front of the socket, Nachos
ends. -/
theorem send_not_as_asked :
    (∃ i : Fin maxFile, (i : ℕ) = 2 ∧
      (∃ s', ending socketThread.toServices
          (socketCall crowded 45 122 3 [65, 0, 66, 0] messageHi) = some (true, s') ∧
        s'.kernel.sent = [(22, [65])] ∧
        ¬ SendsAsAsked onePage i (socketCall crowded 45 122 3 [65, 0, 66, 0] messageHi) true s') ∧
      ∃ s', ending socketThread.toServices
          (socketCall crowded 45 122 2 [65, 66, 67, 68, 0] messageHi) = some (true, s') ∧
        s'.kernel.sent = [(22, [65, 66, 67, 68])] ∧ (s'.at 2).toInt = -1 ∧
        ¬ SendsAsAsked onePage i
          (socketCall crowded 45 122 2 [65, 66, 67, 68, 0] messageHi) true s') ∧
    ∃ i : Fin maxFile, (i : ℕ) = 3 ∧ stubSystem.Reachable gapped ∧
      ∃ s', ending socketThread.toServices (socketCall gapped 45 108 2 [72, 105, 0] messageHi) =
          some (false, s') ∧
        ¬ SendsAsAsked onePage i (socketCall gapped 45 108 2 [72, 105, 0] messageHi) false s' := by
  refine ⟨⟨⟨2, by decide⟩, rfl, ?_, ?_⟩, ⟨3, by decide⟩, rfl, reachable_gapped, ?_⟩
  · obtain ⟨_, s', hend, rfl, hsent⟩ := exists_ending
      (s := socketCall crowded 45 122 3 [65, 0, 66, 0] messageHi)
      (fun returned s' => returned = true ∧ s'.kernel.sent = [(22, [65])]) (by decide +kernel)
    refine ⟨s', hend, hsent, fun h => ?_⟩
    obtain ⟨bytes, hlen, -, hsent', -⟩ := h.sent
    cases hsent.symm.trans hsent'
    exact absurd hlen (by decide +kernel)
  · obtain ⟨_, s', hend, rfl, hsent, hresult⟩ := exists_ending
      (s := socketCall crowded 45 122 2 [65, 66, 67, 68, 0] messageHi)
      (fun returned s' => returned = true ∧ s'.kernel.sent = [(22, [65, 66, 67, 68])] ∧
        (s'.at 2).toInt = -1) (by decide +kernel)
    refine ⟨s', hend, hsent, hresult, fun h => ?_⟩
    cases h.failed hresult
  · obtain ⟨_, s', hend, rfl⟩ :=
      exists_ending (s := socketCall gapped 45 108 2 [72, 105, 0] messageHi)
      (fun returned _ => returned = false) (by decide +kernel)
    exact ⟨s', hend, fun h => nomatch h.returns⟩

/-! ### `SC_Receive` -/

section Bytes

variable {user : ℕ → Option UInt8} {data str rest : List UInt8} {size : ℕ}

/-- The user's buffer has the message, and the old bytes behind it, apart from a NUL right behind
it. -/
structure HoldsMessage (user' user : ℕ → Option UInt8) (data : List UInt8) : Prop where
  bytes : ∀ i < data.length, user' i = data[i]?
  rest : ∀ i, data.length ≤ i → user' i = user i ∨ i = data.length ∧ user' i = some 0

/-- The bytes that `strlen` leaves out or adds are such that it does not matter. -/
structure ReceiveHarmless (user : ℕ → Option UInt8) (data heap : List UInt8) : Prop where
  /-- The bytes behind a NUL, which are not delivered, are there already. -/
  behind : ∀ i j, j < i → i < data.length → data[j]? = some 0 → user i = data[i]?
  /-- The NUL is put behind what `User2System` has copied, if this is longer than the message. -/
  rest : 0 ∉ data → data.length < 255 → ∃ j ≤ 255, user j = some 0
  /-- A message that fills the buffer goes on in the memory behind it. -/
  full : 0 ∉ data → data.length = 256 → ∀ j ≤ (heap.takeWhile (· ≠ 0)).length,
    user (256 + j) = some (heap.getD j 0) ∨ j = 0 ∧ heap.getD 0 0 = 0

theorem holdsMessage_iff_of_mem (hlen : data.length ≤ size) (h0 : 0 ∈ data) (rest : List UInt8) :
    HoldsMessage (afterCopy user size (data ++ rest)) user data ↔
      ∀ i j, j < i → i < data.length → data[j]? = some 0 → user i = data[i]? := by
  rw [← holds_iff_of_mem hlen h0 rest]
  obtain ⟨p, hp, -, -, hcopy⟩ := afterCopy_of_mem user hlen h0 rest
  constructor
  · intro h
    exact ⟨h.bytes, fun i hi => (hcopy i).trans (if_neg (by omega))⟩
  · rintro ⟨hbytes, hrest⟩
    exact ⟨hbytes, fun i hi => .inl (hrest i hi)⟩

theorem holdsMessage_iff_of_notMem (h0 : 0 ∉ data)
    (hsize : data.length + (rest.takeWhile (· ≠ 0)).length ≤ size) :
    HoldsMessage (afterCopy user size (data ++ rest)) user data ↔
      ∀ j ≤ (rest.takeWhile (· ≠ 0)).length,
        user (data.length + j) = some (rest.getD j 0) ∨ j = 0 ∧ rest.getD 0 0 = 0 := by
  have hlen : data.length ≤ size := by omega
  obtain ⟨hfront, hback⟩ := afterCopy_of_notMem user hlen h0 rest
  constructor
  · intro h j hj
    have hbyte := h.rest (data.length + j) (Nat.le_add_right ..)
    rw [hback, if_pos (by omega)] at hbyte
    rcases hbyte with hsame | ⟨hend, hzero⟩
    · exact .inl hsame.symm
    · obtain rfl : j = 0 := by omega
      exact .inr ⟨rfl, Option.some.inj hzero⟩
  · intro h
    refine ⟨hfront, fun i hi => ?_⟩
    obtain ⟨j, rfl⟩ := Nat.exists_eq_add_of_le hi
    rw [hback]
    split
    · rename_i hj
      rcases h j hj.2 with hsame | ⟨rfl, hzero⟩
      · exact .inl hsame.symm
      · exact .inr ⟨rfl, congrArg some hzero⟩
    · exact .inl rfl

/-- A message without a NUL that leaves room for one: the string of the user may go on behind it. -/
theorem holdsMessage_iff_of_short (hstr : ReadsString user 255 str) (h0 : 0 ∉ data)
    (hlen : data.length ≤ 255) (hsize : data.length ≤ size ∧ str.length ≤ size)
    (rest : List UInt8) :
    HoldsMessage (afterCopy user size (data ++ (str.drop data.length ++ 0 :: rest))) user data ↔
      (data.length < 255 → ∃ j ≤ 255, user j = some 0) := by
  have hnul : 0 ∉ str.drop data.length := fun h => hstr.ne_zero (List.mem_of_mem_drop h)
  have htake : (str.drop data.length ++ 0 :: rest).takeWhile (· ≠ 0) = str.drop data.length := by
    rw [List.takeWhile_append_of_pos (takes_all hnul), List.takeWhile_cons_of_neg (by simp),
      List.append_nil]
  have hdrop : (str.drop data.length).length = str.length - data.length := List.length_drop
  have hend : (str.drop data.length ++ 0 :: rest).getD (str.drop data.length).length 0 = 0 := by
    rw [List.getD_append_right _ _ _ _ le_rfl, Nat.sub_self]
    rfl
  have hstr255 : str.length ≤ 255 := hstr.length_le
  have hlast : 0 < (str.drop data.length).length →
      data.length + (str.drop data.length).length = str.length ∧ data.length < 255 := by
    omega
  rw [holdsMessage_iff_of_notMem h0 (by rw [htake]; omega), htake]
  constructor
  · intro h hlt
    rcases hstr.stops with hfull | ⟨hshort, hz⟩
    · -- The user's string fills the buffer, so the NUL comes behind it.
      refine ⟨255, le_rfl, ?_⟩
      rcases h _ le_rfl with hbyte | ⟨hzero, -⟩
      · rwa [hend, show data.length + (str.drop data.length).length = 255 by omega] at hbyte
      · omega
    · exact ⟨_, hshort.le, hz⟩
  · intro h j hj
    rcases hj.lt_or_eq with hlt | rfl
    · rw [List.getD_append _ _ _ _ hlt]
      exact .inl (hstr.drop_getD hlt).symm
    · rcases Nat.eq_zero_or_pos (str.drop data.length).length with hzero | hpos
      · rw [hzero] at hend ⊢
        exact .inr ⟨rfl, hend⟩
      · rw [hend, (hlast hpos).1]
        rcases hstr.stops with hfull | ⟨-, hz⟩
        · obtain ⟨i, hi, hz⟩ := h (hlast hpos).2
          rw [le_antisymm (hstr.length_le_of_zero hz) (hi.trans hfull.ge)]
          exact .inl hz
        · exact .inl hz

/-- The buffer behind the beginning. -/
theorem SocketKernel.buffer_drop (k : SocketKernel) (hstr : str.length ≤ 255) {n : ℕ}
    (hn : n ≤ 255) : ∃ rest, (k.buffer str).drop n = str.drop n ++ 0 :: rest := by
  obtain ⟨m, hm⟩ : ∃ m, 256 - str.length - (n - str.length) = m + 1 :=
    Nat.exists_eq_add_one.mpr (by omega)
  refine ⟨List.replicate m 0 ++ k.heap.drop (n - str.length - (256 - str.length)), ?_⟩
  rw [buffer, List.append_assoc, List.drop_append, List.drop_append, List.drop_replicate, hm,
    List.replicate_succ, List.length_replicate, List.cons_append]

theorem SocketKernel.buffer_drop_full (k : SocketKernel) (hstr : str.length ≤ 255) :
    (k.buffer str).drop 256 = k.heap := by
  have hlen : (str ++ List.replicate (256 - str.length) 0).length = 256 := by
    rw [List.length_append, List.length_replicate]
    omega
  rw [buffer]
  exact List.drop_left' hlen

/-- **The message survives the copy of the string in the buffer if and only if it is harmless.** -/
theorem holdsMessage_iff_harmless (k : SocketKernel) (hstr : ReadsString user 255 str)
    (hlen : data.length ≤ 256) :
    HoldsMessage (afterCopy user (data ++ (k.buffer str).drop data.length).length
      (data ++ (k.buffer str).drop data.length)) user data ↔ ReceiveHarmless user data k.heap := by
  have hstr255 : str.length ≤ 255 := hstr.length_le
  have hdata : data.length ≤ (data ++ (k.buffer str).drop data.length).length := by
    rw [List.length_append]
    exact Nat.le_add_right ..
  by_cases h0 : 0 ∈ data
  · rw [holdsMessage_iff_of_mem hdata h0]
    exact ⟨fun h => ⟨h, absurd h0, absurd h0⟩, ReceiveHarmless.behind⟩
  have hbehind : ∀ i j, j < i → i < data.length → data[j]? = some 0 → user i = data[i]? :=
    fun _ _ _ _ hj => absurd (List.mem_of_getElem? hj) h0
  rcases hlen.lt_or_eq with hshort | hfull
  · obtain ⟨rest, hrest⟩ := k.buffer_drop hstr255 (show data.length ≤ 255 by omega)
    rw [hrest] at hdata ⊢
    have hsize : str.length ≤ (data ++ (str.drop data.length ++ 0 :: rest)).length := by
      simp only [List.length_append, List.length_drop]
      omega
    rw [holdsMessage_iff_of_short hstr h0 (by omega) ⟨hdata, hsize⟩]
    exact ⟨fun h => ⟨hbehind, fun _ => h, fun _ heq => absurd heq (by omega)⟩, fun h => h.rest h0⟩
  · rw [hfull, k.buffer_drop_full hstr255, holdsMessage_iff_of_notMem h0, hfull]
    · exact ⟨fun h => ⟨hbehind, fun _ hlt => absurd hlt (by omega), fun _ _ => h⟩,
        fun h => h.full h0 hfull⟩
    · rw [List.length_append]
      exact Nat.add_le_add_left (List.takeWhile_sublist _).length_le _

end Bytes

/-- What `read` has put into the buffer of the kernel. -/
def received (s s' : CallState SocketKernel) : List (List UInt8) :=
  s'.kernel.stored.drop s.kernel.stored.length

/-- The kernel has put no more into its buffer than it has allocated. If the call returns a number
of bytes, this is not more than the length that the user gave, and the user's buffer has them, and
no other user byte has changed, apart from a NUL right behind them. -/
structure RespectsBuffers (l : PageMap) (s : CallState SocketKernel) (returned : Bool)
    (s' : CallState SocketKernel) : Prop where
  kernel : ∀ data ∈ received s s', (data.length : Int) ≤ maxLength + 1
  user : returned = true → 0 < (s'.at 2).toInt → (s'.at 2).toInt ≤ (s.at 6).toInt ∧
    ∃ data, received s s' = [data] ∧ (s'.at 2).toInt = data.length ∧
      (∀ i < data.length, l.bytesFrom s'.machine (s.at 5).toNat i = data[i]?) ∧
      ∀ v, v < (s.at 5).toNat ∨ (s.at 5).toNat + data.length ≤ v →
        l.byteAt s'.machine v = l.byteAt s.machine v ∨
          v = (s.at 5).toNat + data.length ∧ l.byteAt s'.machine v = some 0

/-- The message that the host has for the socket fits into the buffer of the kernel, and it is
harmless if it is not longer than the user's. If there is a `NULL` entry in front of the socket's,
the host is not asked. -/
def ReceiveFits (l : PageMap) (s : CallState SocketKernel) : Prop :=
  ∀ (i : Fin maxFile) (f : OpenFile), s.kernel.fileSystem.table i = some f → f.isSocket = true →
    f.socketId = (s.at 4).toInt → (∀ j < i, s.kernel.fileSystem.table j ≠ none) →
      (s.kernel.incoming i).1.length ≤ 256 ∧
        (((s.kernel.incoming i).1.length : Int) ≤ (s.at 6).toInt →
          ReceiveHarmless (l.bytesFrom s.machine (s.at 5).toNat)
            (s.kernel.incoming i).1 s.kernel.heap)

/-- `strlen + 1` bytes are all that `System2User` can copy. -/
theorem writtenFrom_strlen (virtAddr : ℕ) (buffer : List UInt8) (bytes : ℕ → Option UInt8) :
    writtenFrom virtAddr ((buffer.takeWhile (· ≠ 0)).length + 1) buffer bytes =
      writtenFrom virtAddr (buffer.length + 1) buffer bytes := by
  have hle : (buffer.takeWhile (· ≠ 0)).length ≤ buffer.length :=
    (List.takeWhile_sublist _).length_le
  funext v
  unfold writtenFrom
  exact if_congr (by omega) rfl rfl

namespace SocketKernel

/-- `read` has delivered the message. -/
def withStored (k : SocketKernel) (data : List UInt8) : SocketKernel :=
  { k with stored := k.stored ++ [data] }

theorem stored_withStored (k : SocketKernel) (data : List UInt8) :
    (k.withStored data).stored.drop k.stored.length = [data] :=
  List.drop_left

end SocketKernel

/-- `ReceiveSocketMessage` for a socket that is in one entry. -/
theorem SocketAt.receiveSocketMessage_looped {k : SocketKernel} {socketDescriptor : Int}
    {i : Fin maxFile} (h : SocketAt k.fileSystem socketDescriptor i) (str : List UInt8)
    (length : Int) : Looped k.fileSystem length i (k, k.buffer str)
      ((k.incoming i).1.length, k.withStored (k.incoming i).1,
        (k.incoming i).1 ++ (k.buffer str).drop (k.incoming i).1.length)
      (k.receiveSocketMessage socketDescriptor str length) :=
  h.looped length SocketKernel.recieveMessageFromSocket (k, k.buffer str)

section Receive

variable {l : PageMap} {s s' : CallState SocketKernel} {k : SocketKernel} {i : Fin maxFile}
  {returned : Bool}

theorem SocketAt.receiveFits_iff (h : SocketAt s.kernel.fileSystem (s.at 4).toInt i)
    (hfront : ∀ j < i, s.kernel.fileSystem.table j ≠ none) :
    ReceiveFits l s ↔ (s.kernel.incoming i).1.length ≤ 256 ∧
      (((s.kernel.incoming i).1.length : Int) ≤ (s.at 6).toInt →
        ReceiveHarmless (l.bytesFrom s.machine (s.at 5).toNat)
          (s.kernel.incoming i).1 s.kernel.heap) := by
  constructor
  · intro hfits
    obtain ⟨f, hf, hsocket, hid⟩ := h.entry
    exact hfits i f hf hsocket hid hfront
  · intro hfits j f hf hsocket hid _
    rw [h.unique j f hf ⟨hsocket, hid⟩]
    exact hfits

/-- A call that fails leaves the user alone. -/
theorem respectsBuffers_of_failed {r : Except Fault Int} (hr : r = .ok (-1) ∨ r = .error .nullEntry)
    (hreply : Replied k r returned s') : RespectsBuffers l s returned s' ↔
      ∀ data ∈ k.stored.drop s.kernel.stored.length, data.length ≤ 256 := by
  have hmax : maxLength = 255 := rfl
  have hkernel : (∀ data ∈ received s s', (data.length : Int) ≤ maxLength + 1) ↔
      ∀ data ∈ k.stored.drop s.kernel.stored.length, data.length ≤ 256 := by
    rw [received, hreply.kernel]
    refine forall₂_congr fun data _ => ?_
    omega
  rw [← hkernel]
  refine ⟨RespectsBuffers.kernel, fun h => ⟨h, fun hreturned hpos => ?_⟩⟩
  rcases hr with rfl | rfl
  · rw [(hreply.result _ rfl).2] at hpos
    exact absurd hpos (by decide)
  · cases hreturned.symm.trans (hreply.crashed _ rfl)

theorem respectsBuffers_of_unasked {r : Except Fault Int}
    (hr : r = .ok (-1) ∨ r = .error .nullEntry) (hreply : Replied s.kernel r returned s') :
    RespectsBuffers l s returned s' := by
  rw [respectsBuffers_of_failed hr hreply, List.drop_length]
  exact fun _ h => absurd h List.not_mem_nil

/-- A call that returns the message. -/
theorem respectsBuffers_of_received {data buffer : List UInt8}
    (hbound : 1 ≤ data.length ∧ data.length ≤ 1024)
    (hle : (data.length : Int) ≤ (s.at 6).toInt)
    (hreply : Replied (s.kernel.withStored data) (.ok data.length) returned s')
    (hview : l.byteAt s'.machine = if BitVec.ofInt 32 (data.length : Int) =
      -1 then l.byteAt s.machine
      else writtenFrom (s.at 5).toNat ((buffer.takeWhile (· ≠ 0)).length + 1) buffer
        (l.byteAt s.machine)) :
    RespectsBuffers l s returned s' ↔ data.length ≤ 256 ∧
      HoldsMessage (afterCopy (l.bytesFrom s.machine (s.at 5).toNat) buffer.length buffer)
        (l.bytesFrom s.machine (s.at 5).toNat) data := by
  have hmax : maxLength = 255 := rfl
  obtain ⟨hreturned, hresult⟩ := hreply.result _ rfl
  have hdata : received s s' = [data] := by
    rw [received, hreply.kernel, SocketKernel.stored_withStored]
  have hint : (BitVec.ofInt 32 (data.length : Int)).toInt = data.length :=
    toInt_ofInt (by unfold minInt; omega) (by unfold maxInt; omega)
  have hminus : BitVec.ofInt 32 (data.length : Int) ≠ -1 := by
    intro h
    rw [h] at hint
    have hone : (-1 : BitVec 32).toInt = -1 := by decide
    omega
  rw [← hresult] at hint
  rw [if_neg hminus, writtenFrom_strlen] at hview
  obtain ⟨hcopy, hlow⟩ := bytesFrom_of_writtenFrom hview
  rw [← hcopy]
  constructor
  · rintro ⟨hfits, huser⟩
    have hlen := hfits data (by rw [hdata]; exact List.mem_singleton_self _)
    obtain ⟨-, data', hdata', -, hbytes, hrest⟩ := huser hreturned (by omega)
    obtain rfl : data = data' := List.singleton_inj.mp (hdata.symm.trans hdata')
    refine ⟨by omega, hbytes, fun i hi => ?_⟩
    exact (hrest _ (.inr (Nat.add_le_add_left hi _))).imp_right fun h =>
      ⟨Nat.add_left_cancel h.1, h.2⟩
  · rintro ⟨hlen, hholds⟩
    refine ⟨fun data' hmem => ?_, fun _ _ =>
      ⟨by omega, data, hdata, hint, hholds.bytes, fun v hv => ?_⟩⟩
    · rw [hdata, List.mem_singleton] at hmem
      rw [hmem]
      omega
    · by_cases hlt : v < (s.at 5).toNat
      · exact .inl (hlow v hlt)
      · obtain ⟨i, rfl⟩ := Nat.exists_eq_add_of_le (Nat.le_of_not_lt hlt)
        exact (hholds.rest i (by omega)).imp_right fun h => ⟨by rw [h.1], h.2⟩

end Receive

/-- **`SC_Receive` respects its buffers if and only if** the message that the host delivers has at
most 256 bytes and, if it is not longer than the user has said, what `strlen` makes of it does no
harm. -/
theorem receive_respects_buffers_iff (S : SocketServices) (l : PageMap)
    (s s' : CallState SocketKernel) (returned : Bool) (hl : l.Installed s.machine)
    (hreach : stubSystem.Reachable s.kernel.fileSystem) (hcode : scOf (s.at 2) = some .receive)
    (hend : ending S.toServices s = some (returned, s')) :
    RespectsBuffers l s returned s' ↔ ReceiveFits l s := by
  obtain ⟨str, r, k, buffer, hstr, hout, hreply, hview⟩ := scReceive_spec hl hcode hend
  by_cases hsocket : ∃ i f, s.kernel.fileSystem.table i = some f ∧ f.isSocket = true ∧
      f.socketId = (s.at 4).toInt
  · obtain ⟨i, f, hi, hsocket, hid⟩ := hsocket
    have hat : SocketAt s.kernel.fileSystem (s.at 4).toInt i := by
      rw [← hid]
      exact socketAt_of_reachable hreach hi hsocket
    have hlooped := hat.receiveSocketMessage_looped str (s.at 6).toInt
    rw [hout] at hlooped
    cases hlooped with
    | @null j hj hnone =>
      -- The host is not asked.
      refine iff_of_true (respectsBuffers_of_unasked (.inr rfl) hreply)
        fun i' f' hf' hsocket' hid' hfull => ?_
      rw [hat.unique i' f' hf' ⟨hsocket', hid'⟩] at hfull
      exact absurd hnone (hfull j hj)
    | returned hfront hle =>
      -- The message is copied to the user.
      rw [respectsBuffers_of_received (s.kernel.incoming i).2 hle hreply (hview _ rfl),
        hat.receiveFits_iff hfront]
      refine and_congr_right fun hlen => ?_
      rw [holdsMessage_iff_harmless s.kernel hstr hlen]
      exact ⟨fun h _ => h, fun h => h hle⟩
    | tooLong hfront hlt hr =>
      -- The message is longer than the user has said, and the loop goes on behind the entry.
      rw [respectsBuffers_of_failed hr hreply, hat.receiveFits_iff hfront,
        SocketKernel.stored_withStored]
      constructor
      · intro h
        exact ⟨h _ (List.mem_singleton_self _), fun hle => absurd hlt (not_lt_of_ge hle)⟩
      · rintro ⟨h, -⟩ data hmem
        rwa [List.mem_singleton.mp hmem]
  · obtain ⟨r', hr', heq⟩ := messageLoop_of_ne s.kernel.fileSystem (s.at 4).toInt (s.at 6).toInt
      SocketKernel.recieveMessageFromSocket (l := List.finRange maxFile)
      (fun i _ f hi hmatch => hsocket ⟨i, f, hi, hmatch⟩) (s.kernel, s.kernel.buffer str)
    rw [← FileSystem.map_finRange] at heq
    cases hout.symm.trans heq
    exact iff_of_true (respectsBuffers_of_unasked hr' hreply) fun i f hi hsock hid _ =>
      absurd ⟨i, f, hi, hsock, hid⟩ hsocket

/-- The message comes into a buffer that has a string of its length. -/
theorem receive_respects_buffers_hi : ∃ returned s',
    ending socketThread.toServices (socketCall crowded 46 122 2 [1, 1, 0] messageHi) =
        some (returned, s') ∧ s'.at 2 = 2 ∧
      RespectsBuffers onePage (socketCall crowded 46 122 2 [1, 1, 0] messageHi) returned s' := by
  obtain ⟨returned, s', hend, htwo⟩ := exists_ending
    (s := socketCall crowded 46 122 2 [1, 1, 0] messageHi) (fun _ s' => s'.at 2 = 2)
    (by decide +kernel)
  refine ⟨returned, s', hend, htwo, (receive_respects_buffers_iff socketThread onePage _ s' returned
    (socketCall_installed ..) reachable_crowded (by decide +kernel) hend).mpr ?_⟩
  intro i f _ _ _ _
  show messageHi.1.length ≤ 256 ∧ (_ → ReceiveHarmless _ messageHi.1 [])
  refine ⟨by decide, fun _ => ⟨fun i j _ _ hj => ?_, fun _ _ => ?_, fun _ hfull => ?_⟩⟩
  · exact absurd (List.mem_of_getElem? hj) (by decide)
  · exact ⟨2, by decide, by decide +kernel⟩
  · exact absurd hfull (by decide)

/-- A message of 300 bytes. -/
def messageLong : Chunk := ⟨List.replicate 300 65, by rw [List.length_replicate]; decide⟩

/-- A message with a NUL. -/
def messageNul : Chunk := ⟨[65, 0, 66], by decide⟩

/-- 300 bytes are put into the buffer of 256, and the call returns `-1`. Of a message with a NUL,
the byte behind it is counted and not delivered. -/
theorem receive_breaks_buffers :
    (∃ s', ending socketThread.toServices (socketCall crowded 46 122 128 [0] messageLong) =
        some (true, s') ∧ s'.kernel.stored = [List.replicate 300 65] ∧
      ¬ RespectsBuffers onePage (socketCall crowded 46 122 128 [0] messageLong) true s') ∧
    ∃ s', ending socketThread.toServices (socketCall crowded 46 122 3 [1, 1, 1, 0] messageNul) =
        some (true, s') ∧ (s'.at 2).toInt = 3 ∧ onePage.byteAt s'.machine 2 = some 1 ∧
      ¬ RespectsBuffers onePage (socketCall crowded 46 122 3 [1, 1, 1, 0] messageNul) true s' := by
  constructor
  · obtain ⟨_, s', hend, rfl, hstored⟩ := exists_ending
      (s := socketCall crowded 46 122 128 [0] messageLong)
      (fun returned s' => returned = true ∧ s'.kernel.stored = [List.replicate 300 65])
      (by decide +kernel)
    refine ⟨s', hend, hstored, fun h => ?_⟩
    have hlen := h.kernel (List.replicate 300 65) (by
      rw [received, hstored]
      exact List.mem_singleton_self _)
    rw [List.length_replicate] at hlen
    exact absurd hlen (by decide)
  · obtain ⟨_, s', hend, rfl, hthree, hbyte, hstored⟩ := exists_ending
      (s := socketCall crowded 46 122 3 [1, 1, 1, 0] messageNul)
      (fun returned s' => returned = true ∧ (s'.at 2).toInt = 3 ∧
        onePage.byteAt s'.machine 2 = some 1 ∧ s'.kernel.stored = [[65, 0, 66]]) (by decide +kernel)
    refine ⟨s', hend, hthree, hbyte, fun h => ?_⟩
    obtain ⟨-, data, hdata, -, hbytes, -⟩ := h.user rfl (by rw [hthree]; decide)
    rw [received, hstored] at hdata
    cases hdata
    have hlost := hbytes 2 (by decide)
    have haddr : ((socketCall crowded 46 122 3 [1, 1, 1, 0] messageNul).at 5).toNat + 2 = 2 := by
      decide +kernel
    rw [PageMap.bytesFrom, haddr, hbyte] at hlost
    exact absurd hlost (by decide)

end Nachos.UserProg
