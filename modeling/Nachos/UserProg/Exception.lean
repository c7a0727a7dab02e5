import Nachos.Machine.CpuSafety

namespace Nachos.UserProg.Exception

open Base Machine

/-!
# UserProg — the system call handler

`ExceptionHandler` of `userprog/exception.cc` with the functions it uses to read its arguments from
user memory, and `IncreasePC`. A system call finds its code in register 2 and its arguments in
registers 4 to 6, and must advance the program counters before it returns, or the program makes
the same call for ever.

What the cases of the switch call in the rest of the kernel is a parameter (`Services`): a function
that gets the arguments as the case has read them, and returns a result or ends in another way
(`Ending`). `Stop` says why a system call does not return.

`Keeps` bounds what a case does besides that call and `IncreasePC`: it writes register 2 only and
stops at an exception of `ReadMem` or `WriteMem` only. With `IncreasePC` at its end the case
`Completes` where the function it calls returns, which is what `Accepts` asks for.
-/

/-! ### The rest of the kernel -/

/-- The functions that the system calls end in, with their arguments. -/
inductive Service where
  | sysHalt
  | sysCreate (fileName : List UInt8)
  | sysRemove (fileName : List UInt8)
  | sysOpen (fileName : List UInt8) (type : BitVec 32)
  | sysClose (id : BitVec 32)
  | sysRead (buffer : List UInt8) (size id : BitVec 32)
  | sysWrite (buffer : List UInt8) (size id : BitVec 32)
  | sysSeek (pos id : BitVec 32)
  | openNewSocket
  | connect (id : BitVec 32) (ip : List UInt8) (port : BitVec 32)
  | sendSocketMessage (id : BitVec 32) (buffer : List UInt8) (length : BitVec 32)
  | receiveSocketMessage (id : BitVec 32) (buffer : List UInt8) (length : BitVec 32)
  | sysReadString
  | sysPrintString (buffer : List UInt8)
  | sysExec (fileName : List UInt8)
  | sysExecV (argv : List (List UInt8))
  | joinUpdate (id : BitVec 32)
  | exitUpdate (exitCode : BitVec 32)
  | semCreate (name : List UInt8) (semVal : BitVec 32)
  | semWait (name : List UInt8)
  | semSignal (name : List UInt8)
  /-- `PutChar` on the console, once for each character. -/
  | putChars (text : List Int)

/-- The kernel and the machine. -/
structure CallState (K : Type) where
  kernel : K
  machine : MachineState

/-- The register `i`. -/
abbrev CallState.at {K : Type} (s : CallState K) (i : ℕ) : BitVec 32 := s.machine.at i

/-- How a function of the kernel ends that does not return. -/
inductive Ending where
  /-- The machine is halted, or the thread has finished. -/
  | finished
  /-- An assertion fails, or a pointer leads nowhere. -/
  | crashed
  /-- The thread is left waiting. -/
  | waiting
  deriving DecidableEq

/-- What such a function does: it returns a result, with what it has left in the buffer; or it does
not return. -/
inductive Reply (K : Type) where
  | returned (result : BitVec 32) (buffer : List UInt8) (s : CallState K)
  | stopped (e : Ending) (s : CallState K)

/-- The rest of the kernel. -/
structure Services (K : Type) where
  serve : CallState K → Service → Reply K
  /-- `SysHalt` ends the simulation. -/
  halts : ∀ s, serve s .sysHalt = .stopped .finished s
  /-- Other threads may run in between, but the registers of this one are restored. -/
  restores : ∀ {s r result buffer s'}, serve s r = .returned result buffer s' →
    s'.machine.registers = s.machine.registers
  /-- The largest block that `new` can give. -/
  maxAlloc : Int
  /-- The buffers of fixed size can be had. -/
  buffers : 256 ≤ maxAlloc
  /-- A block is smaller than half of the address space. -/
  addresses : maxAlloc ≤ maxInt

/-- Why a system call does not return. -/
inductive Stop where
  /-- The function that the case calls ends otherwise. -/
  | service (e : Ending)
  /-- `ReadMem` or `WriteMem` raises an exception. -/
  | memory
  /-- `ASSERTNOTREACHED()`. -/
  | assertNotReached
  /-- `new` with a negative number or with one that is too large. -/
  | badAlloc
  /-- `argv[0]` is used and has not been set. -/
  | noProgram
  /-- An index outside of an array of `Handle_PrintNum`. -/
  | numBuffer
  /-- The assertion in `ReadRegister` and `WriteRegister`. -/
  | register
  deriving DecidableEq

/-- A computation of the kernel. -/
abbrev Sys (K : Type) := EStateM Stop (CallState K)

/-! ### The model -/

section Model

variable {K : Type} (S : Services K)

/-- `kernel->machine->ReadRegister(num)`. -/
def readRegister (num : ℕ) : Sys K (BitVec 32) := fun s =>
  match s.machine.registers.readRegister num with
  | some v => .ok v s
  | none => .error .register s

/-- `kernel->machine->WriteRegister(num, value)`. -/
def writeRegister (num : ℕ) (value : BitVec 32) : Sys K Unit := fun s =>
  match s.machine.registers.writeRegister num value with
  | some r => .ok () { s with machine := { s.machine with registers := r } }
  | none => .error .register s

/-- A computation of the machine that the kernel calls. An exception comes back to the kernel, which
halts the machine. -/
def onMachine {α : Type} (c : Cpu α) : Sys K α := fun s =>
  match c s.machine with
  | .ok a m => .ok a { s with machine := m }
  | .error _ m => .error .memory { s with machine := m }

/-- `new` for the given number of bytes. -/
def allocate (bytes : Int) : Sys K Unit :=
  if bytes < 0 ∨ S.maxAlloc < bytes then throw .badAlloc else pure ()

/-- The loop of `User2System`, with the number of rounds that are left. -/
def copyIn (virtAddr : BitVec 32) : ℕ → Sys K (List UInt8)
  | 0 => pure []
  | n + 1 => do
    let oneChar ← onMachine (load virtAddr 1)
    if oneChar = 0 then pure []
    else do
      let rest ← copyIn (virtAddr + 1) n
      pure (UInt8.ofNat oneChar.toNat :: rest)

/-- `User2System`: the characters in front of the first zero. -/
def user2System (virtAddr : BitVec 32) (limit : Int) : Sys K (List UInt8) := do
  allocate S (wrap32 (limit + 1))
  copyIn virtAddr limit.toNat

/-- The loop of `System2User`; what is behind the characters of the buffer is zero. -/
def copyOut (virtAddr : BitVec 32) : ℕ → List UInt8 → Sys K Unit
  | 0, _ => pure ()
  | n + 1, buffer => do
    let oneChar := buffer.headD 0
    onMachine (store virtAddr 1 (BitVec.ofNat 32 oneChar.toNat))
    if oneChar = 0 then pure () else copyOut (virtAddr + 1) n buffer.tail

/-- `System2User`. -/
def system2User (virtAddr : BitVec 32) (len : Int) (buffer : List UInt8) : Sys K Unit :=
  if len ≤ 0 then pure () else copyOut virtAddr len.toNat buffer

/-- `MAXLENGTH`. -/
def maxLength : Int := 255

/-- The loop of `User2System2`, with the number of arguments that are left. -/
def copyArgs (virtAddr : BitVec 32) : ℕ → Sys K (List (List UInt8))
  | 0 => pure []
  | n + 1 => do
    let argi ← onMachine (load virtAddr 4)
    allocate S maxLength
    let arg ← user2System S argi maxLength
    let rest ← copyArgs (virtAddr + 4) n
    pure (arg :: rest)

/-- `User2System2`. -/
def user2System2 (virtAddr : BitVec 32) (argc : Int) : Sys K (List (List UInt8)) := do
  allocate S (4 * wrap32 (argc + 1))
  copyArgs S virtAddr argc.toNat

/-- `IncreasePC`. -/
def increasePC : Sys K Unit := do
  let pc ← readRegister pcReg
  writeRegister prevPCReg pc
  let pc ← readRegister pcReg
  writeRegister pcReg (pc + 4)
  let pc ← readRegister pcReg
  writeRegister nextPCReg (pc + 4)

/-- The digits that `Handle_PrintNum` puts into `temp`, with the entries of it that are left. -/
def digitsLoop : ℕ → Int → Option (List Int)
  | 0, _ => none
  | n + 1, number =>
    if number.tdiv 10 = 0 then some [number.tmod 10]
    else (digitsLoop n (number.tdiv 10)).map (number.tmod 10 :: ·)

/-- What `Handle_PrintNum` puts into `num_buffer`; `none` if it writes behind one of its arrays. -/
def numBuffer (number : Int) : Option (List Int) :=
  if number < 0 then
    (digitsLoop 11 (wrap32 (-number))).bind fun temp =>
      if temp.length < 11 then some (45 :: temp.reverse.map (48 + ·)) else none
  else (digitsLoop 11 number).map fun temp => temp.reverse.map (48 + ·)

/-- A call into the rest of the kernel. -/
def service (r : Service) : Sys K (BitVec 32 × List UInt8) := fun s =>
  match S.serve s r with
  | .returned result buffer s' => .ok (result, buffer) s'
  | .stopped e s' => .error (.service e) s'

/-- A call whose result goes to register 2. -/
def serviceResult (r : Service) : Sys K Unit := do
  let (result, _) ← service S r
  writeRegister 2 result

/-- A call that is answered with 0 or with -1. -/
def serviceStatus (r : Service) : Sys K Unit := do
  let (result, _) ← service S r
  writeRegister 2 (if result = -1 then -1 else 0)

/-- The system call codes of `syscall.h`. -/
inductive Sc where
  | halt | exit | exec | join | create | remove | openFile | read | write | seek | close
  | threadFork | threadYield | execV | threadExit | threadJoin | printNum
  | createSemaphore | wait | signal | add | socketTCP | connect | send | receive
  | readString | printString
  deriving DecidableEq

/-- The code with the given number. -/
def scOf (type : BitVec 32) : Option Sc :=
  match type.toNat with
  | 0 => some .halt
  | 1 => some .exit
  | 2 => some .exec
  | 3 => some .join
  | 4 => some .create
  | 5 => some .remove
  | 6 => some .openFile
  | 7 => some .read
  | 8 => some .write
  | 9 => some .seek
  | 10 => some .close
  | 11 => some .threadFork
  | 12 => some .threadYield
  | 13 => some .execV
  | 14 => some .threadExit
  | 15 => some .threadJoin
  | 17 => some .printNum
  | 23 => some .createSemaphore
  | 24 => some .wait
  | 25 => some .signal
  | 42 => some .add
  | 43 => some .socketTCP
  | 44 => some .connect
  | 45 => some .send
  | 46 => some .receive
  | 47 => some .readString
  | 48 => some .printString
  | _ => none

/-- `SC_Open`. -/
def scOpen : Sys K Unit := do
  let virtAddr ← readRegister 4
  let type ← readRegister 5
  if type ≠ 0 ∧ type ≠ 1 then do
    writeRegister 2 (-1)
    increasePC
    throw .assertNotReached
  else do
    let filename ← user2System S virtAddr 32
    serviceResult S (.sysOpen filename type)
    increasePC

/-- `SC_Read`. -/
def scRead : Sys K Unit := do
  let virtAddr ← readRegister 4
  let size ← readRegister 5
  let openFileID ← readRegister 6
  let buffer ← user2System S virtAddr size.toInt
  let (result, buffer) ← service S (.sysRead buffer size openFileID)
  writeRegister 2 result
  (if 0 < result.toInt then system2User virtAddr (wrap32 (size.toInt + 1)) buffer else pure ())
  increasePC

/-- `SC_Write`. -/
def scWrite : Sys K Unit := do
  let virtAddr ← readRegister 4
  let size ← readRegister 5
  let openFileId ← readRegister 6
  let buffer ← user2System S virtAddr size.toInt
  serviceResult S (.sysWrite buffer size openFileId)
  increasePC

/-- `SC_Seek`. -/
def scSeek : Sys K Unit := do
  let pos ← readRegister 4
  let openFileID ← readRegister 5
  serviceResult S (.sysSeek pos openFileID)
  increasePC

/-- `SC_Connect`. -/
def scConnect : Sys K Unit := do
  let socketId ← readRegister 4
  let virtAddr ← readRegister 5
  let port ← readRegister 6
  let ipAddress ← user2System S virtAddr maxLength
  serviceStatus S (.connect socketId ipAddress port)
  increasePC

/-- `SC_Send`. -/
def scSend : Sys K Unit := do
  let socketId ← readRegister 4
  let virtAddr ← readRegister 5
  let length ← readRegister 6
  let buffer ← user2System S virtAddr maxLength
  serviceResult S (.sendSocketMessage socketId buffer length)
  increasePC

/-- `SC_Receive`. -/
def scReceive : Sys K Unit := do
  let socketId ← readRegister 4
  let virtAddr ← readRegister 5
  let length ← readRegister 6
  let buffer ← user2System S virtAddr maxLength
  let (result, buffer) ← service S (.receiveSocketMessage socketId buffer length)
  writeRegister 2 result
  (if result = -1 then pure ()
    else system2User virtAddr ((buffer.takeWhile (· ≠ 0)).length + 1) buffer)
  increasePC

/-- `SC_ReadString`. -/
def scReadString : Sys K Unit := do
  let virtAddr ← readRegister 4
  let (_, buffer) ← service S .sysReadString
  let length := (buffer.takeWhile (· ≠ 0)).length
  system2User virtAddr (length + 1) buffer
  writeRegister 2 (BitVec.ofNat 32 length)
  increasePC

/-- `SC_PrintString`. -/
def scPrintString : Sys K Unit := do
  let memPtr ← readRegister 4
  let buffer ← user2System S memPtr maxLength
  let _ ← service S (.sysPrintString buffer)
  increasePC

/-- `SC_PrintNum`. -/
def scPrintNum : Sys K Unit := do
  let number ← readRegister 4
  match numBuffer number.toInt with
  | none => throw .numBuffer
  | some text => do
    let _ ← service S (.putChars text)
    increasePC

/-- `SC_CreateSemaphore`. -/
def scCreateSemaphore : Sys K Unit := do
  let virtAddr ← readRegister 4
  let semVal ← readRegister 5
  let name ← user2System S virtAddr maxLength
  serviceResult S (.semCreate name semVal)
  increasePC

/-- A call with a name in user memory, whose result goes to register 2 by way of `reply`. -/
def scName (reply : Service → Sys K Unit) (f : List UInt8 → Service) : Sys K Unit := do
  let virtAddr ← readRegister 4
  let name ← user2System S virtAddr maxLength
  reply (f name)
  increasePC

/-- A call with a number. -/
def scNumber (reply : Service → Sys K Unit) (f : BitVec 32 → Service) : Sys K Unit := do
  let id ← readRegister 4
  reply (f id)
  increasePC

/-- `SC_Exit`. -/
def scExit : Sys K Unit := do
  let exitCode ← readRegister 4
  let _ ← service S (.exitUpdate exitCode)
  increasePC

/-- `SC_ExecV`. -/
def scExecV : Sys K Unit := do
  let argc ← readRegister 4
  let argv ← readRegister 5
  let args ← user2System2 S argv argc.toInt
  if args = [] then throw .noProgram
  else do
    serviceResult S (.sysExecV args)
    increasePC

/-- The switch over the system call codes. -/
def dispatch : Option Sc → Sys K Unit
  | some .halt => do
    let _ ← service S .sysHalt
    throw .assertNotReached
  | some .create => scName S (serviceStatus S) .sysCreate
  | some .remove => scName S (serviceStatus S) .sysRemove
  | some .openFile => scOpen S
  | some .close => scNumber (serviceStatus S) .sysClose
  | some .read => scRead S
  | some .write => scWrite S
  | some .seek => scSeek S
  | some .socketTCP => do
    serviceResult S .openNewSocket
    increasePC
  | some .connect => scConnect S
  | some .send => scSend S
  | some .receive => scReceive S
  | some .readString => scReadString S
  | some .printString => scPrintString S
  | some .exec => scName S (serviceResult S) .sysExec
  | some .join => scNumber (serviceResult S) .joinUpdate
  | some .exit => scExit S
  | some .createSemaphore => scCreateSemaphore S
  | some .wait => scName S (serviceResult S) .semWait
  | some .signal => scName S (serviceResult S) .semSignal
  | some .printNum => scPrintNum S
  | some .execV => scExecV S
  -- `default: break;`
  | _ => pure ()

/-- `ExceptionHandler`, for the exceptions that the machine raises: `NoException` and
`NumExceptionTypes` are names for no exception. -/
def exceptionHandler (which : ExceptionType) : Sys K Unit := do
  let type ← readRegister 2
  match which with
  | .syscallException => dispatch S (scOf type)
  | _ => do
    let _ ← service S .sysHalt

end Model

/-! ### What a case does before `IncreasePC` -/

section Keeps

variable {K : Type} {S : Services K} {i : ℕ}

/-- The state after a write to register `i`. -/
def CallState.put (s : CallState K) (i : ℕ) (v : BitVec 32) (hi : i < numTotalRegs) : CallState K :=
  { s with machine := s.machine.put i v hi }

theorem CallState.at_put (s : CallState K) (v : BitVec 32) (hi : i < numTotalRegs) (j : ℕ) :
    (s.put i v hi).at j = if i = j then v else s.at j :=
  Machine.at_put ..

/-- The registers of the machine as cells. -/
def sysCells : Cells (CallState K) ℕ (BitVec 32) where
  get s i := s.at i
  patch p s := { s with machine := regCells.patch p s.machine }

/-- The computation writes register 2 only and stops at an exception in user memory only. -/
abbrev Keeps {α : Type} (Q : α → Prop) (f : Sys K α) : Prop :=
  Bounded (SameOff sysCells { 2 }) (· = .memory) Q f

theorem readRegister_eq (hi : i < numTotalRegs) (s : CallState K) :
    readRegister i s = .ok (s.at i) s := by
  simp only [readRegister, Registers.readRegister_of_lt _ hi, at_of_lt _ hi]

/-- The three arguments of a system call. -/
theorem readArgs_eq (f : BitVec 32 → BitVec 32 → BitVec 32 → Sys K α) (s : CallState K) :
    (readRegister 4 >>= fun a => readRegister 5 >>= fun b => readRegister 6 >>= f a b) s =
      f (s.at 4) (s.at 5) (s.at 6) s := by
  rw [bind_ok (readRegister_eq (by decide) s), bind_ok (readRegister_eq (by decide) s),
    bind_ok (readRegister_eq (by decide) s)]

theorem writeRegister_eq (hi : i < numTotalRegs) (v : BitVec 32) (s : CallState K) :
    writeRegister i v s = .ok () (s.put i v hi) := by
  simp only [writeRegister, Registers.writeRegister_of_lt _ hi, CallState.put, MachineState.put]

theorem keeps_writeResult (v : BitVec 32) :
    Keeps (fun _ => True) (writeRegister 2 v : Sys K Unit) where
  ok {s a s'} h := by
    rw [writeRegister_eq (by decide)] at h
    cases h
    refine ⟨fun i hi => ?_, trivial⟩
    exact (CallState.at_put ..).trans (if_neg (Ne.symm hi))
  error {s e s'} h := by
    rw [writeRegister_eq (by decide)] at h
    cases h

/-- A computation of the machine that writes no register. -/
theorem keeps_onMachine {α : Type} {c : Cpu α} {Q : α → Prop} (h : Uses ∅ ∅ Q c) :
    Keeps Q (onMachine c : Sys K α) where
  ok {s a s'} hs := by
    unfold onMachine at hs
    cases hc : c s.machine with
    | ok a m =>
      rw [hc] at hs
      cases hs
      exact ⟨fun i _ => (h.ok hc).1 i (Set.notMem_empty i), (h.ok hc).2⟩
    | error e m => rw [hc] at hs; cases hs
  error {s e s'} hs := by
    unfold onMachine at hs
    cases hc : c s.machine with
    | ok a m => rw [hc] at hs; cases hs
    | error e m =>
      rw [hc] at hs
      cases hs
      exact ⟨fun i _ => (h.error hc).1 i (Set.notMem_empty i), rfl⟩

theorem keeps_allocate {bytes : Int} (h0 : 0 ≤ bytes) (h : bytes ≤ S.maxAlloc) :
    Keeps (fun _ => True) (allocate S bytes) :=
  .ite (fun hc => by omega) fun _ => .pure trivial

theorem keeps_copyIn (virtAddr : BitVec 32) (n : ℕ) :
    Keeps (fun _ => True) (copyIn virtAddr n : Sys K _) := by
  induction n generalizing virtAddr with
  | zero => exact .pure trivial
  | succ n ih =>
    refine (keeps_onMachine (uses_load ..)).bind fun c _ => ?_
    exact .ite (fun _ => .pure trivial) fun _ => (ih _).bind fun _ _ => .pure trivial

/-- `User2System` with a limit that leaves room for the zero at the end. -/
theorem keeps_user2System (virtAddr : BitVec 32) {limit : Int} (h0 : -1 ≤ limit)
    (h : limit + 1 ≤ S.maxAlloc) : Keeps (fun _ => True) (user2System S virtAddr limit) := by
  have hmax := S.addresses
  have hwrap : wrap32 (limit + 1) = limit + 1 :=
    wrap32_of_nonneg (by omega) (h.trans hmax)
  refine (keeps_allocate ?_ ?_).bind fun _ _ => keeps_copyIn ..
  · rw [hwrap]; omega
  · rw [hwrap]; exact h

theorem keeps_name (virtAddr : BitVec 32) {limit : Int} (h0 : 0 ≤ limit) (h : limit ≤ 255) :
    Keeps (fun _ => True) (user2System S virtAddr limit) :=
  keeps_user2System virtAddr (by omega) (by have := S.buffers; omega)

theorem keeps_copyOut (virtAddr : BitVec 32) (n : ℕ) (buffer : List UInt8) :
    Keeps (fun _ => True) (copyOut virtAddr n buffer : Sys K Unit) := by
  induction n generalizing virtAddr buffer with
  | zero => exact .pure trivial
  | succ n ih =>
    refine (keeps_onMachine (uses_store ..)).bind fun _ _ => ?_
    exact .ite (fun _ => .pure trivial) fun _ => ih _ _

theorem keeps_system2User (virtAddr : BitVec 32) (len : Int) (buffer : List UInt8) :
    Keeps (fun _ => True) (system2User virtAddr len buffer : Sys K Unit) :=
  .ite (fun _ => .pure trivial) fun _ => keeps_copyOut ..

theorem service_of_returned {s s' : CallState K} {r : Service} {result : BitVec 32}
    {buffer : List UInt8} (h : S.serve s r = .returned result buffer s') :
    service S r s = .ok (result, buffer) s' := by
  unfold service
  rw [h]

theorem service_of_stopped {s s' : CallState K} {r : Service} {e : Ending}
    (h : S.serve s r = .stopped e s') : service S r s = .error (.service e) s' := by
  unfold service
  rw [h]

theorem serve_of_service {s s' : CallState K} {r : Service} {a : BitVec 32 × List UInt8}
    (h : service S r s = .ok a s') : S.serve s r = .returned a.1 a.2 s' := by
  unfold service at h
  split at h
  · rename_i hserve
    cases h
    exact hserve
  · cases h

/-- The function returns in the state. -/
def Services.Returns (S : Services K) (r : Service) (s : CallState K) : Prop :=
  ∃ result buffer s', S.serve s r = .returned result buffer s'

end Keeps

/-! ### The digits of a number fit the buffers -/

theorem digitsLoop_eq_some {k n : ℕ} (hk : k < n) {number : Int}
    (h : number.natAbs < 10 ^ (k + 1)) :
    ∃ digits, digitsLoop n number = some digits ∧ digits.length ≤ k + 1 := by
  -- Each round divides the number by ten and uses one entry.
  induction k generalizing n number with
  | zero =>
    obtain ⟨n, rfl⟩ := Nat.exists_eq_succ_of_ne_zero hk.ne'
    have hdiv : number.tdiv 10 = 0 := by
      rw [← Int.natAbs_eq_zero, Int.natAbs_tdiv]
      exact Nat.div_eq_of_lt h
    exact ⟨_, if_pos hdiv, le_rfl⟩
  | succ k ih =>
    obtain ⟨n, rfl⟩ := Nat.exists_eq_succ_of_ne_zero (Nat.ne_zero_of_lt hk)
    by_cases hdiv : number.tdiv 10 = 0
    · exact ⟨_, if_pos hdiv, Nat.succ_le_succ (Nat.zero_le _)⟩
    · have hlt : (number.tdiv 10).natAbs < 10 ^ (k + 1) := by
        rw [Int.natAbs_tdiv]
        exact Nat.div_lt_of_lt_mul (by rw [pow_succ] at h; exact (mul_comm _ _).trans_gt h)
      obtain ⟨digits, hdigits, hlen⟩ := ih (Nat.lt_of_succ_lt_succ hk) hlt
      refine ⟨number.tmod 10 :: digits, ?_, Nat.succ_le_succ hlen⟩
      simp only [digitsLoop, if_neg hdiv, hdigits, Option.map_some]

theorem numBuffer_eq_some (number : BitVec 32) : ∃ text, numBuffer number.toInt = some text := by
  have hlo := number.le_toInt
  have hhi := number.toInt_lt
  unfold numBuffer
  split
  · have hwrap := wrap32_mem (-number.toInt)
    unfold minInt maxInt at hwrap
    have habs : (wrap32 (-number.toInt)).natAbs < 10 ^ (9 + 1) := by omega
    obtain ⟨temp, htemp, hlen⟩ := digitsLoop_eq_some (n := 11) (by decide) habs
    exact ⟨_, by rw [htemp, Option.bind_some, if_pos (by omega)]⟩
  · have habs : number.toInt.natAbs < 10 ^ (9 + 1) := by omega
    obtain ⟨temp, htemp, -⟩ := digitsLoop_eq_some (n := 11) (by decide) habs
    exact ⟨_, by rw [htemp, Option.map_some]⟩

/-! ### Completed calls -/

section Completes

variable {K : Type} {S : Services K} {s : CallState K} {α : Type}

/-- The program counters have moved to the instruction after the call. -/
structure CallState.Advanced (s s' : CallState K) : Prop where
  pc : s'.at pcReg = s.at pcReg + 4
  nextPC : s'.at nextPCReg = s.at pcReg + 8
  prevPC : s'.at prevPCReg = s.at pcReg

/-- The computation returns behind the call, or stops as `E` allows. -/
structure Completes (E : Stop → Prop) (f : Sys K Unit) (s : CallState K) : Prop where
  ok : ∀ {s'}, f s = .ok () s' → s.Advanced s'
  error : ∀ {e s'}, f s = .error e s' → E e

/-- `IncreasePC` writes three registers. -/
theorem increasePC_ok (s : CallState K) : increasePC s = .ok () (((s.put prevPCReg (s.at pcReg)
    (by decide)).put pcReg (s.at pcReg + 4) (by decide)).put nextPCReg (s.at pcReg + 4 + 4)
    (by decide)) := by
  have hpc : pcReg < numTotalRegs := by decide
  unfold increasePC
  rw [bind_ok (readRegister_eq hpc s), bind_ok (writeRegister_eq (by decide) _ _),
    bind_ok (readRegister_eq hpc _), bind_ok (writeRegister_eq hpc _ _),
    bind_ok (readRegister_eq hpc _), writeRegister_eq (by decide)]
  simp only [CallState.at_put, pcReg, prevPCReg, if_true, if_false, Nat.reduceEqDiff]

theorem increasePC_eq (s : CallState K) : ∃ s', increasePC s = .ok () s' ∧ s.Advanced s' := by
  refine ⟨_, increasePC_ok s, ?_, ?_, ?_⟩
  · simp [CallState.at_put, pcReg, nextPCReg]
  · simp only [CallState.at_put, if_true]
    bv_omega
  · simp [CallState.at_put, pcReg, nextPCReg, prevPCReg]

theorem completes_increasePC (E : Stop → Prop) (s : CallState K) : Completes E increasePC s := by
  obtain ⟨s₁, heq, hadv⟩ := increasePC_eq s
  constructor
  · intro s' h
    cases heq.symm.trans h
    exact hadv
  · intro e s' h
    cases heq.symm.trans h

namespace Completes

variable {E : Stop → Prop}

theorem mono {E' : Stop → Prop} {f : Sys K Unit} (h : Completes E f s) (hE : ∀ e, E e → E' e) :
    Completes E' f s where
  ok hs := h.ok hs
  error hs := hE _ (h.error hs)

theorem read {i : ℕ} (hi : i < numTotalRegs) {g : BitVec 32 → Sys K Unit}
    (h : Completes E (g (s.at i)) s) : Completes E (readRegister i >>= g) s where
  ok hs := h.ok (by rwa [bind_ok (readRegister_eq hi s)] at hs)
  error hs := h.error (by rwa [bind_ok (readRegister_eq hi s)] at hs)

/-- The first part has returned and has written register 2 only. -/
theorem of_ok {f : Sys K α} {g : α → Sys K Unit} {a : α} {s₁ : CallState K} (hf : f s = .ok a s₁)
    (hsame : SameOff sysCells { 2 } s s₁) (hg : Completes E (g a) s₁) :
    Completes E (f >>= g) s := by
  have hpc : s₁.at pcReg = s.at pcReg := hsame pcReg (by simp [pcReg])
  constructor
  · intro s' hs
    rw [bind_ok hf] at hs
    have hadv := hg.ok hs
    exact ⟨by rw [hadv.pc, hpc], by rw [hadv.nextPC, hpc], by rw [hadv.prevPC, hpc]⟩
  · intro e s' hs
    rw [bind_ok hf] at hs
    exact hg.error hs

theorem bind {f : Sys K α} {g : α → Sys K Unit} {Q : α → Prop}
    (hf : Bounded (SameOff sysCells { 2 }) E Q f)
    (hg : ∀ a s', Q a → f s = .ok a s' → Completes E (g a) s') : Completes E (f >>= g) s := by
  cases hfs : f s with
  | ok a s₁ =>
    obtain ⟨hsame, ha⟩ := hf.ok hfs
    exact .of_ok hfs hsame (hg a s₁ ha hfs)
  | error e s₁ =>
    constructor
    · intro s' hs
      rw [bind_error hfs] at hs
      cases hs
    · intro e' s' hs
      rw [bind_error hfs] at hs
      cases hs
      exact (hf.error hfs).2

/-- The common end of the cases. -/
theorem finish {f : Sys K α} {Q : α → Prop} (hf : Bounded (SameOff sysCells { 2 }) E Q f) :
    Completes E (f >>= fun _ => increasePC) s :=
  bind hf fun _ s₁ _ _ => completes_increasePC E s₁

/-- A call of a function that returns. -/
theorem serve {r : Service} {g : BitVec 32 × List UInt8 → Sys K Unit} (h : S.Returns r s)
    (hg : ∀ a s₁, Completes E (g a) s₁) : Completes E (service S r >>= g) s := by
  obtain ⟨result, buffer, s₁, hserve⟩ := h
  refine .of_ok (service_of_returned hserve) (fun i _ => ?_) (hg _ s₁)
  exact congrArg (fun regs : Registers => regs[i]?.getD 0) (S.restores hserve)

/-- Its result goes to register 2 in some form, and the case is done. -/
theorem reply {r : Service} (value : BitVec 32 × List UInt8 → BitVec 32) (h : S.Returns r s) :
    Completes (· = .memory)
      ((service S r >>= fun a => writeRegister 2 (value a)) >>= fun _ => increasePC) s := by
  rw [bind_assoc]
  exact .serve h fun a s₁ => .finish (keeps_writeResult _)

end Completes

/-! ### The cases of the switch -/

/-- The function returns if it is called with the string at the address. -/
def Services.ReturnsWith (S : Services K) (s : CallState K) (virtAddr : BitVec 32) (limit : Int)
    (f : List UInt8 → Service) : Prop :=
  After (user2System S virtAddr limit) s fun text => S.Returns (f text)

/-- `new` can give a buffer for so many characters and a zero. -/
def Services.Fits (S : Services K) (size : Int) : Prop := -1 ≤ size ∧ size + 1 ≤ S.maxAlloc

/-- A case that reads a string and then calls its function. -/
theorem Completes.text {virtAddr : BitVec 32} {limit : Int} {f : List UInt8 → Service}
    {g : List UInt8 → Sys K Unit} (hfits : S.Fits limit) (h : S.ReturnsWith s virtAddr limit f)
    (hg : ∀ text s₁, S.Returns (f text) s₁ → Completes (· = .memory) (g text) s₁) :
    Completes (· = .memory) (user2System S virtAddr limit >>= g) s :=
  .bind (keeps_user2System virtAddr hfits.1 hfits.2) fun text s₁ _ hs₁ => hg text s₁ (h text s₁ hs₁)

/-- A call that ends where the function it calls does. -/
theorem Completes.ended {E : Stop → Prop} {r : Service} {e : Ending} {s' : CallState K}
    (h : S.serve s r = .stopped e s') (hE : E (.service e))
    (g : BitVec 32 × List UInt8 → Sys K Unit) : Completes E (service S r >>= g) s := by
  have heq : (service S r >>= g) s = .error (.service e) s' := bind_error (service_of_stopped h)
  constructor
  · intro s₁ hs
    cases heq.symm.trans hs
  · intro e₁ s₁ hs
    cases heq.symm.trans hs
    exact hE

/-- What may stop the call with code `c`. -/
def Allowed (c : Option Sc) (e : Stop) : Prop :=
  e = .memory ∨ e = .service .finished ∧ (c = some .halt ∨ c = some .exit)

theorem allocate_error {bytes : Int} (h : bytes < 0 ∨ S.maxAlloc < bytes) :
    allocate S bytes s = .error .badAlloc s := by
  unfold allocate
  rw [if_pos h]
  rfl

/-- A size that `new` cannot serve. -/
theorem wrap32_succ_refused {n : Int} (hlo : minInt ≤ n) (hhi : n ≤ maxInt) {k : Int} (hk : 1 ≤ k)
    (h : n < -1 ∨ S.maxAlloc < k * (n + 1)) :
    k * wrap32 (n + 1) < 0 ∨ S.maxAlloc < k * wrap32 (n + 1) := by
  unfold minInt at hlo
  have hmax := S.addresses
  by_cases htop : n = maxInt
  · subst htop
    exact .inl (mul_neg_of_pos_of_neg (by omega) (by decide))
  · rw [wrap32_eq_self (by unfold minInt; omega) (by omega)]
    refine h.imp (fun h => ?_) id
    exact mul_neg_of_pos_of_neg (by omega) (by omega)

variable {s' : CallState K}

/-- `User2System` has returned with a buffer. -/
theorem fits_of_user2System {virtAddr size : BitVec 32} {text : List UInt8}
    (h : user2System S virtAddr size.toInt s = .ok text s') : S.Fits size.toInt := by
  have hlo := size.le_toInt
  have hhi := size.toInt_lt
  by_contra hfits
  have hrefused := wrap32_succ_refused (S := S) (n := size.toInt) (k := 1) (by unfold minInt; omega)
    (by unfold maxInt; omega) le_rfl (by unfold Services.Fits at hfits; omega)
  rw [one_mul] at hrefused
  cases (bind_error (allocate_error hrefused)).symm.trans h

theorem exceptionHandler_syscall (S : Services K) (s : CallState K) :
    exceptionHandler S .syscallException s = dispatch S (scOf (s.at 2)) s :=
  bind_ok (readRegister_eq (by decide) s)

end Completes

/-- A kernel whose functions return 0. -/
def quiet : Services Unit where
  serve s
    | .sysHalt | .exitUpdate _ => .stopped .finished s
    | _ => .returned 0 [] s
  halts _ := rfl
  restores {s r result buffer s'} h := by
    cases r <;> cases h <;> rfl
  maxAlloc := maxInt
  buffers := by decide
  addresses := le_rfl

end Nachos.UserProg.Exception
