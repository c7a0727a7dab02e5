import Nachos.UserProg.ReadWrite

namespace Nachos.UserProg

open Base FileSys.Stub Machine UserProg.Exception

/-!
# UserProg — sending and receiving with the bytes

`SendSocketMessage` and `ReceiveSocketMessage` of the stub file system with the bytes they move, and
`SC_Send` and `SC_Receive` over them. Both functions look through the descriptor table for the entry
of the socket; they ask the host when they have found it, and go on looking if the host has moved
more bytes than the caller asked for.

* `messageLoop` — the two loops; a `NULL` entry on the way ends Nachos;
* `SocketAt.looped`, `messageLoop_of_ne` — what the loops do for a socket that is in one entry, and
  for a number that is no socket's;
* `SocketKernel` — the kernel, with what the host is going to do and what it has done;
* `ending` — whether a system call returns or crashes the kernel, and in which state;
* `scSend_spec`, `scReceive_spec` — the two system calls.
-/

/-! ### The loops over the table -/

section Loop

variable {T : Type} (fileSystem : FileSystem) (socketDescriptor length : Int)
    (host : ℕ → T → Int × T)

/-- The loop of `SendSocketMessage` and `ReceiveSocketMessage`: `host i` is the call of the host
that is made if entry `i` is the one of the socket. -/
def messageLoop : List ℕ → T → Except Fault Int × T
  | [], t => (.ok (-1), t)
  | i :: rest, t =>
    match fileSystem.entry i >>= FileSystem.member with
    | .error e => (.error e, t)
    | .ok f =>
      if f.isSocket ∧ f.socketId = socketDescriptor then
        if (host i t).1 ≤ length then (.ok (host i t).1, (host i t).2)
        else messageLoop rest (host i t).2
      else messageLoop rest t

/-- Entries of something else are passed over: the host is not called, and the loop gets to its end
or to a `NULL` entry. -/
theorem messageLoop_of_ne {l : List (Fin maxFile)}
    (hother : ∀ j ∈ l, ∀ f, fileSystem.table j = some f →
      ¬(f.isSocket = true ∧ f.socketId = socketDescriptor)) (t : T) :
    ∃ r, (r = .ok (-1) ∨ r = .error .nullEntry) ∧
      messageLoop fileSystem socketDescriptor length host (l.map Fin.val) t = (r, t) := by
  induction l with
  | nil => exact ⟨_, .inl rfl, rfl⟩
  | cons j rest ih =>
    obtain ⟨hj, hrest⟩ := List.forall_mem_cons.mp hother
    rw [List.map_cons, messageLoop, FileSystem.entry_fin, ok_bind]
    cases htable : fileSystem.table j with
    | none => exact ⟨_, .inr rfl, rfl⟩
    | some f =>
      simp only [FileSystem.member]
      rw [if_neg (hj f htable)]
      exact ih hrest

/-- The entry `i` is the one of the socket, and no other. -/
structure SocketAt (i : Fin maxFile) : Prop where
  entry : ∃ f, fileSystem.table i = some f ∧ f.isSocket = true ∧ f.socketId = socketDescriptor
  unique : ∀ j f, fileSystem.table j = some f → f.isSocket = true ∧
    f.socketId = socketDescriptor → j = i

/-- **What the loops do** if the answer of the host would be `answer`: a `NULL` entry in front of
the socket ends Nachos. Otherwise the host is called once; if it has moved more than the caller
asked for, the loop goes on behind the entry, to the end of the table or to a `NULL` entry. -/
inductive Looped (i : Fin maxFile) (t : T) (answer : Int × T) : Except Fault Int × T → Prop where
  | null {j : Fin maxFile} : j < i → fileSystem.table j = none →
    Looped i t answer (.error .nullEntry, t)
  | returned : (∀ j < i, fileSystem.table j ≠ none) → answer.1 ≤ length →
      Looped i t answer (.ok answer.1, answer.2)
  | tooLong {r : Except Fault Int} : (∀ j < i, fileSystem.table j ≠ none) → length < answer.1 →
      (r = .ok (-1) ∨ r = .error .nullEntry) → Looped i t answer (r, answer.2)

variable {fileSystem socketDescriptor} {i : Fin maxFile}
    (h : SocketAt fileSystem socketDescriptor i)

include h

theorem SocketAt.looped_from {l : List (Fin maxFile)} (hmem : i ∈ l) (hsorted : l.Pairwise (· < ·))
    (hfront : ∀ j < i, j ∉ l → fileSystem.table j ≠ none) (t : T) :
    Looped fileSystem length i t (host i t)
      (messageLoop fileSystem socketDescriptor length host (l.map Fin.val) t) := by
  induction l with
  | nil => cases hmem
  | cons j rest ih =>
    obtain ⟨hlt, hrest⟩ := List.pairwise_cons.mp hsorted
    rw [List.map_cons, messageLoop, FileSystem.entry_fin, ok_bind]
    rcases List.mem_cons.mp hmem with rfl | hmem
    · have hfull : ∀ j < i, fileSystem.table j ≠ none := by
        refine fun j hj => hfront j hj fun hjl => ?_
        rcases List.mem_cons.mp hjl with rfl | hjl
        · exact lt_irrefl j hj
        · exact lt_asymm hj (hlt j hjl)
      obtain ⟨f, hf, hmatch⟩ := h.entry
      rw [hf]
      simp only [FileSystem.member]
      rw [if_pos hmatch]
      by_cases hle : (host i t).1 ≤ length
      · rw [if_pos hle]
        exact .returned hfull hle
      · obtain ⟨r, hr, heq⟩ := messageLoop_of_ne fileSystem socketDescriptor length host
          (fun j hj f hf hmatch => (hlt j hj).ne' (h.unique j f hf hmatch)) (host i t).2
        rw [if_neg hle, heq]
        exact .tooLong hfull (by omega) hr
    · have hji := hlt i hmem
      cases hj : fileSystem.table j with
      | none => exact .null hji hj
      | some f =>
        simp only [FileSystem.member]
        rw [if_neg fun hmatch => hji.ne (h.unique j f hj hmatch)]
        refine ih hmem hrest fun j' hj' hnot => ?_
        by_cases heq : j' = j
        · rw [heq, hj]
          exact Option.some_ne_none f
        · exact hfront j' hj' (by simp [heq, hnot])

theorem SocketAt.looped (t : T) : Looped fileSystem length i t (host i t)
    (messageLoop fileSystem socketDescriptor length host (List.range 20) t) := by
  rw [FileSystem.map_finRange]
  exact h.looped_from length host (List.mem_finRange i) (List.pairwise_lt_finRange _)
    (fun j _ hj => absurd (List.mem_finRange j) hj) t

end Loop

/-- A socket that is open in a reachable table is in one entry. -/
theorem socketAt_of_reachable {s : FileSystem} (h : stubSystem.Reachable s) {i : Fin maxFile}
    {f : OpenFile} (hi : s.table i = some f) (hsocket : f.isSocket = true) :
    SocketAt s f.socketId i := by
  refine ⟨⟨f, hi, hsocket, rfl⟩, fun j g hj hmatch => ?_⟩
  by_contra hne
  -- The host descriptor of the socket would belong to both entries.
  have hdisjoint := (FileSystem.inv_of_reachable h).disjoint j i g f hne hj hi
  have hown : ∀ g : OpenFile, g.isSocket = true →
      (g.socketId - plusSocketId).toNat ∈ g.descriptors := by
    intro g hg
    rw [OpenFile.descriptors, if_pos hg]
    exact List.mem_cons_of_mem _ (List.mem_singleton_self _)
  refine hdisjoint (hown g hmatch.1) ?_
  rw [hmatch.2]
  exact hown f hsocket

/-! ### The kernel -/

/-- What a `read` of the host from a socket delivers. -/
abbrev Chunk := { bytes : List UInt8 // 1 ≤ bytes.length ∧ bytes.length ≤ 1024 }

/-- What the two functions use of the kernel, what the host is going to do, and what it has done. -/
structure SocketKernel where
  fileSystem : FileSystem
  /-- The bytes that `send` takes, if it is called for an entry; `none` if it fails. -/
  takes : ℕ → Option ℕ
  /-- What `read` delivers, if it is called for an entry. -/
  incoming : ℕ → Chunk
  /-- The memory behind the buffer that `User2System` has allocated. -/
  heap : List UInt8
  /-- What `send` has been called with. -/
  sent : List (Int × List UInt8)
  /-- What `read` has put into the buffer. -/
  stored : List (List UInt8)

/-- The buffer that `User2System` has filled, and the memory behind it. -/
def SocketKernel.buffer (k : SocketKernel) (chars : List UInt8) : List UInt8 :=
  chars ++ List.replicate (256 - chars.length) 0 ++ k.heap

namespace SocketKernel

/-- The answer of `send` for an entry. -/
def sendAnswer (k : SocketKernel) (i : ℕ) (message : List UInt8) : Int :=
  match k.takes i with
  | none => -1
  | some n => min n message.length

/-- `SendMessageToSocket`: `send` of the string in the buffer. -/
def sendMessageToSocket (socketId : Int) (buffer : List UInt8) (i : ℕ) (k : SocketKernel) :
    Int × SocketKernel :=
  let message := buffer.takeWhile (· ≠ 0)
  (k.sendAnswer i message, { k with sent := k.sent ++ [(socketId, message)] })

/-- `RecieveMessageFromSocket`: the host puts up to 1024 bytes at the beginning of the buffer. -/
def recieveMessageFromSocket (i : ℕ) (t : SocketKernel × List UInt8) :
    Int × SocketKernel × List UInt8 :=
  let bytes := (t.1.incoming i).1
  (bytes.length, { t.1 with stored := t.1.stored ++ [bytes] }, bytes ++ t.2.drop bytes.length)

/-- `FileSystem::SendSocketMessage`. -/
def sendSocketMessage (k : SocketKernel) (socketDescriptor : Int) (buffer : List UInt8)
    (length : Int) : Except Fault Int × SocketKernel :=
  messageLoop k.fileSystem socketDescriptor length
    (sendMessageToSocket (socketDescriptor - plusSocketId) buffer) (List.range 20) k

/-- `FileSystem::ReceiveSocketMessage`, with the buffer. -/
def receiveSocketMessage (k : SocketKernel) (socketDescriptor : Int) (buffer : List UInt8)
    (length : Int) : Except Fault Int × SocketKernel × List UInt8 :=
  messageLoop k.fileSystem socketDescriptor length recieveMessageFromSocket (List.range 20)
    (k, k.buffer buffer)

end SocketKernel

/-- How the two functions come back to the handler; a `NULL` pointer ends the program. -/
def socketReply (s : CallState SocketKernel) (buffer : List UInt8) :
    Except Fault Int × SocketKernel → Reply SocketKernel
  | (.ok result, k) => .returned (BitVec.ofInt 32 result) buffer { s with kernel := k }
  | (.error _, k) => .stopped .crashed { s with kernel := k }

/-- The rest of the kernel, with the two functions as they are. The host calls in them stop the
whole simulation, so no other thread runs meanwhile. -/
structure SocketServices extends Services SocketKernel where
  serve_send : ∀ (s : CallState SocketKernel) (id : BitVec 32) (buffer : List UInt8)
    (length : BitVec 32), serve s (.sendSocketMessage id buffer length) =
      socketReply s buffer (s.kernel.sendSocketMessage id.toInt buffer length.toInt)
  serve_receive : ∀ (s : CallState SocketKernel) (id : BitVec 32) (buffer : List UInt8)
    (length : BitVec 32), serve s (.receiveSocketMessage id buffer length) =
      let (r, k, buffer') := s.kernel.receiveSocketMessage id.toInt buffer length.toInt
      socketReply s buffer' (r, k)

/-- What comes back of the functions, in the machine of the call. -/
theorem socketReply_returned {s s' : CallState SocketKernel} {buffer buffer' : List UInt8}
    {out : Except Fault Int × SocketKernel} {result : BitVec 32}
    (h : socketReply s buffer out = .returned result buffer' s') : s'.machine = s.machine := by
  obtain ⟨r, k⟩ := out
  cases r <;> cases h
  rfl

/-- The only thread of the kernel, whose other system calls do nothing. -/
def socketThread : SocketServices where
  serve s
    | .sysHalt | .exitUpdate _ => .stopped .finished s
    | .sendSocketMessage id buffer length =>
      socketReply s buffer (s.kernel.sendSocketMessage id.toInt buffer length.toInt)
    | .receiveSocketMessage id buffer length =>
      let (r, k, buffer') := s.kernel.receiveSocketMessage id.toInt buffer length.toInt
      socketReply s buffer' (r, k)
    | _ => .returned 0 [] s
  halts _ := rfl
  restores {s r result buffer s'} h := by
    cases r with
    | sendSocketMessage _ _ _ | receiveSocketMessage _ _ _ =>
      exact congrArg MachineState.registers (socketReply_returned h)
    | _ => cases h <;> rfl
  maxAlloc := singleThread.maxAlloc
  buffers := singleThread.buffers
  addresses := singleThread.addresses
  serve_send _ _ _ _ := rfl
  serve_receive _ _ _ _ := rfl

/-! ### The system calls -/

/-- How a system call ends that user memory does not stop: whether it returns, and the state in
which it does so or in which the kernel crashes. -/
def ending {K : Type} (S : Services K) (s : CallState K) : Option (Bool × CallState K) :=
  match exceptionHandler S .syscallException s with
  | .ok _ s' => some (true, s')
  | .error (.service .crashed) s' => some (false, s')
  | .error _ _ => none

section Calls

variable {S : SocketServices} {l : PageMap} {s s' : CallState SocketKernel} {returned : Bool}

theorem ending_cases {K : Type} {S : Services K} {s s' : CallState K}
    (h : ending S s = some (returned, s')) :
    returned = true ∧ exceptionHandler S .syscallException s = .ok () s' ∨
      returned = false ∧ exceptionHandler S .syscallException s =
      .error (.service .crashed) s' := by
  unfold ending at h
  split at h
  · rename_i hs'
    cases h
    exact .inl ⟨rfl, hs'⟩
  · rename_i hs'
    cases h
    exact .inr ⟨rfl, hs'⟩
  · cases h

/-- A case that reads a string ends behind the function it calls, or in it. -/
theorem ending_of_string {K : Type} {S : Services K} {s s' : CallState K}
    (hl : l.Installed s.machine)
    {virtAddr : BitVec 32} {f : List UInt8 → Service} {g : BitVec 32 × List UInt8 → Sys K Unit}
    (hcall : exceptionHandler S .syscallException s =
      (user2System S virtAddr maxLength >>= fun text => service S (f text) >>= g) s)
    (hg : ∀ a s, Completes (· = .memory) (g a) s) (h : ending S s = some (returned, s')) :
    ∃ str s₁, ReadsString (l.bytesFrom s.machine virtAddr.toNat) 255 str ∧
      l.Leaves s s₁ (l.byteAt s.machine) ∧
      ((returned = true ∧ ∃ result buffer s₂, S.serve s₁ (f str) = .returned result buffer s₂ ∧
        g (result, buffer) s₂ = .ok () s') ∨
      returned = false ∧ S.serve s₁ (f str) = .stopped .crashed s') := by
  rcases ending_cases h with ⟨rfl, hrun⟩ | ⟨rfl, hrun⟩ <;> rw [hcall] at hrun
  · obtain ⟨str, s₁, huser, hrun⟩ := bind_eq_ok hrun
    obtain ⟨⟨result, buffer⟩, s₂, hserve, hrun⟩ := bind_eq_ok hrun
    obtain ⟨hstr, hs₁⟩ := user2System_copied hl huser
    exact ⟨str, s₁, hstr, hs₁, .inl ⟨rfl, result, buffer, s₂, serve_of_service hserve, hrun⟩⟩
  · rcases bind_eq_error hrun with herr | ⟨str, s₁, huser, hrun⟩
    · cases ((keeps_name virtAddr (by decide) (by decide)).error herr).2
    obtain ⟨hstr, hs₁⟩ := user2System_copied hl huser
    refine ⟨str, s₁, hstr, hs₁, .inr ⟨rfl, ?_⟩⟩
    cases hserve : S.serve s₁ (f str) with
    | returned result buffer s₂ =>
      rw [bind_ok (service_of_returned hserve)] at hrun
      cases (hg _ s₂).error hrun
    | stopped e s₂ =>
      rw [bind_error (service_of_stopped hserve)] at hrun
      cases hrun
      rfl

/-- What comes back of the functions, as the handler sees it: a result in register 2, or a crash. -/
structure Replied (k : SocketKernel) (r : Except Fault Int) (returned : Bool)
    (s' : CallState SocketKernel) : Prop where
  kernel : s'.kernel = k
  result : ∀ result, r = .ok result → returned = true ∧ s'.at 2 = BitVec.ofInt 32 result
  crashed : ∀ e, r = .error e → returned = false

theorem replied_of_stopped {out : Except Fault Int × SocketKernel} {buffer : List UInt8}
    {e : Ending} (h : socketReply s buffer out = .stopped e s') : Replied out.2 out.1 false s' := by
  obtain ⟨r, k⟩ := out
  cases r <;> cases h
  exact ⟨rfl, nofun, fun _ _ => rfl⟩

/-- **What `SC_Send` does.** -/
theorem scSend_spec (hl : l.Installed s.machine) (hcode : scOf (s.at 2) = some .send)
    (h : ending S.toServices s = some (returned, s')) :
    ∃ str, ReadsString (l.bytesFrom s.machine (s.at 5).toNat) 255 str ∧
      Replied (s.kernel.sendSocketMessage (s.at 4).toInt str (s.at 6).toInt).2
        (s.kernel.sendSocketMessage (s.at 4).toInt str (s.at 6).toInt).1 returned s' := by
  have hsend : exceptionHandler S.toServices .syscallException s =
      (user2System S.toServices (s.at 5) maxLength >>= fun str =>
        service S.toServices (.sendSocketMessage (s.at 4) str (s.at 6)) >>= fun a =>
          writeRegister 2 a.1 >>= fun _ => increasePC) s := by
    rw [exceptionHandler_syscall, hcode, dispatch, scSend, readArgs_eq]
    simp only [serviceResult, bind_assoc]
  obtain ⟨str, s₁, hstr, hs₁, hrun⟩ := ending_of_string hl hsend
    (fun a s => .bind (keeps_writeResult _) fun _ s₁ _ _ => completes_increasePC _ s₁) h
  refine ⟨str, hstr, ?_⟩
  rw [S.serve_send, hs₁.kernel] at hrun
  rcases hrun with ⟨rfl, result, buffer, s₂, hserve, hrun⟩ | ⟨rfl, hserve⟩
  · rw [bind_ok (writeRegister_eq (by decide) _ s₂)] at hrun
    obtain ⟨hkernel, hresult, -⟩ := increasePC_spec (l := l) hrun
    cases hout : s.kernel.sendSocketMessage (s.at 4).toInt str (s.at 6).toInt with
    | mk r k =>
      rw [hout] at hserve
      cases r <;> cases hserve
      refine ⟨hkernel, fun result' hr => ?_, fun e he => by cases he⟩
      cases hr
      exact ⟨rfl, by rw [hresult, CallState.at_put, if_pos rfl]⟩
  · exact replied_of_stopped hserve

/-- The string that `SC_Receive` copies to the user. -/
theorem copyString_spec {result virtAddr : BitVec 32} {buffer : List UInt8}
    (h : (if result = -1 then pure ()
      else system2User virtAddr ((buffer.takeWhile (· ≠ 0)).length + 1) buffer :
        Sys SocketKernel Unit) s = .ok () s') (hl : l.Installed s.machine) :
    l.Leaves s s' (if result = -1 then l.byteAt s.machine
      else writtenFrom virtAddr.toNat ((buffer.takeWhile (· ≠ 0)).length + 1) buffer
        (l.byteAt s.machine)) := by
  by_cases hr : result = -1
  · rw [if_pos hr] at h ⊢
    cases h
    exact ⟨rfl, rfl, hl, rfl⟩
  · rw [if_neg hr] at h ⊢
    rw [system2User, if_neg (by omega)] at h
    exact copyOut_spec hl h

/-- **What `SC_Receive` does**: without a crash, it copies the string that it finds in its buffer to
the user if the result is not `-1`. -/
theorem scReceive_spec (hl : l.Installed s.machine) (hcode : scOf (s.at 2) = some .receive)
    (h : ending S.toServices s = some (returned, s')) :
    ∃ str r k buffer, ReadsString (l.bytesFrom s.machine (s.at 5).toNat) 255 str ∧
      s.kernel.receiveSocketMessage (s.at 4).toInt str (s.at 6).toInt = (r, k, buffer) ∧
      Replied k r returned s' ∧ ∀ result, r = .ok result → l.byteAt s'.machine =
        if BitVec.ofInt 32 result = -1 then l.byteAt s.machine
        else writtenFrom (s.at 5).toNat ((buffer.takeWhile (· ≠ 0)).length + 1) buffer
          (l.byteAt s.machine) := by
  have hreceive : exceptionHandler S.toServices .syscallException s = scReceive S.toServices s := by
    rw [exceptionHandler_syscall, hcode, dispatch]
  rw [scReceive, readArgs_eq] at hreceive
  obtain ⟨str, s₁, hstr, hs₁, hrun⟩ := ending_of_string hl hreceive
    (fun a s => .bind (keeps_writeResult _) fun _ s₁ _ _ =>
      .finish (.ite (fun _ => .pure trivial) fun _ => keeps_system2User ..)) h
  obtain ⟨r, k, buffer', hout⟩ : ∃ r k buffer',
      s.kernel.receiveSocketMessage (s.at 4).toInt str (s.at 6).toInt = (r, k, buffer') :=
    ⟨_, _, _, rfl⟩
  rw [S.serve_receive, hs₁.kernel, hout] at hrun
  refine ⟨str, r, k, buffer', hstr, hout, ?_⟩
  rcases hrun with ⟨rfl, result, buffer, s₂, hserve, hrun⟩ | ⟨rfl, hserve⟩
  · simp only at hrun
    rw [bind_ok (writeRegister_eq (by decide) _ s₂)] at hrun
    obtain ⟨_, s₃, hcopy, hpc⟩ := bind_eq_ok hrun
    obtain ⟨hkernel, hresult, hview⟩ := increasePC_spec (l := l) hpc
    cases r <;> cases hserve
    have hs₃ := copyString_spec (l := l) hcopy hs₁.installed
    refine ⟨⟨hkernel.trans hs₃.kernel, fun result' hr => ?_, fun e he => by cases he⟩,
      fun result' hr => ?_⟩
    · cases hr
      exact ⟨rfl, by rw [hresult, hs₃.at_eq, CallState.at_put, if_pos rfl]⟩
    · cases hr
      rw [hview, hs₃.byteAt]
      show (if _ then l.byteAt s₁.machine else writtenFrom _ _ _ (l.byteAt s₁.machine)) = _
      rw [hs₁.byteAt]
  · have hreply := replied_of_stopped hserve
    refine ⟨hreply, fun result hr => ?_⟩
    cases (hreply.result result hr).1

end Calls

end Nachos.UserProg
