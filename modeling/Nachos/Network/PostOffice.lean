import Nachos.Network.Packet
import Nachos.Threads.SynchList

namespace Nachos.Network

open Base Machine Threads Function

/-!
# Network — the post office

Any number of machines, known by their `hostName`, that send messages to one another's mail boxes.
On each machine there are

* `Output` — `PostOfficeOutput` and `NetworkOutput`: threads that send, one at a time;
* `Input` — `NetworkInput`, which polls its socket and holds one packet, and the postal worker that
  takes the packet out;
* `Boxes` — the mail boxes, each a `SynchList`, that the worker fills and other threads empty.

The sending side is the device of `SynchDevice.lean`, a mail box the list of `SynchList.lean`; what
is proved about them there holds here. Between two machines the socket is a queue of blocks of
bytes: it loses nothing by itself, and it says nothing about the order of packets from different
machines.

Histories say what happened: the messages sent, in the order in which `sendLock` was held; the
packets read from the socket; the packets that the worker has copied. For one sender each of them is
a subsequence of the one before, and between `NetworkInput` and the worker nothing is lost.
-/

variable {T : Type} [DecidableEq T]

/-! ### The sending side -/

/-- `PostOfficeOutput` and `NetworkOutput`. -/
structure Output (T : Type) where
  /-- `sendLock`, `messageSent` and the device. -/
  device : DevState T Packet
  /-- The arguments of the last call of `Send` of each thread. -/
  args : T → Option Mail
  /-- The messages sent, in the order in which `sendLock` was held. -/
  sent : List Mail

namespace Output

/-- The constructor. -/
def new : Output T where
  device := .new
  args := fun _ => none
  sent := []

/-- `PostOfficeOutput::Send` is called. -/
def send (hostName : Int) (o : Output T) (t : T) (m : Mail) : Outcome (Output T) :=
  match o.device.pc t with
  | .idle =>
    match Network.send hostName m with
    | none => .fault
    | some p =>
      (o.device.next (networkOutput hostName) (.call t p)).map fun d =>
        { o with device := d, args := update o.args t (some m) }
  | _ => .disabled

/-- `network->Send(pktHdr, buffer)`, up to the loss of the packet. -/
def transmit (hostName : Int) (o : Output T) (t : T) : Outcome (Output T × Packet) :=
  match o.device.pc t with
  | .calling p =>
    if o.device.lock.pc t = .holding then
      if (networkOutput hostName).accepts p then
        (o.device.next (networkOutput hostName) (.request t)).map fun d =>
          ({ o with device := d, sent := o.sent ++ (o.args t).toList }, p)
      else .fault
    else .disabled
  | _ => .disabled

/-- The rest of `Send`: the code of the lock, `messageSent->P()` and the interrupt. -/
def inside : DevAction T Packet → Bool
  | .call _ _ | .request _ => false
  | _ => true

/-- A piece of the rest of `Send`. -/
def step (hostName : Int) (o : Output T) (a : DevAction T Packet) : Outcome (Output T) :=
  if inside a then
    (o.device.next (networkOutput hostName) a).map fun d => { o with device := d }
  else .disabled

end Output

/-! ### The receiving side -/

/-- Where the postal worker is. -/
inductive WorkerPc where
  /-- Before a test of `messageAvailable`. -/
  | testing
  /-- Asleep in `messageAvailable->P()`. -/
  | asleep
  /-- Behind `P`, before `network->Receive(buffer)`. -/
  | ready
  /-- In `boxes[box].Put`. -/
  | putting (box : Int)
  deriving DecidableEq

/-- `NetworkInput` and the postal worker. -/
structure Input where
  inHdr : PacketHeader
  inbox : List UInt8
  messageAvailable : Semaphore Unit
  worker : WorkerPc
  /-- The worker's `buffer`. -/
  buffer : List UInt8
  /-- The packets read from the socket. -/
  arrived : List Packet
  /-- The packets that the worker has copied. -/
  copied : List Packet

namespace Input

/-- The constructors, which leave the arrays as they are. -/
structure Initial (i : Input) : Prop where
  inHdr : i.inHdr.length = 0
  messageAvailable : i.messageAvailable = .new 0
  worker : i.worker = .testing
  arrived : i.arrived = []
  copied : i.copied = []

/-- The packet that `NetworkInput` holds. -/
def buffered (i : Input) : List Packet :=
  if i.inHdr.length = 0 then [] else [⟨i.inHdr, i.inbox.take i.inHdr.length⟩]

/-- `NetworkInput::CallBack` and `PostOfficeInput::CallBack`, with what is left in the socket. -/
def callBack (hostName : Int) (i : Input) (socket : List (List UInt8)) :
    Outcome (Input × List (List UInt8)) :=
  if i.inHdr.length ≠ 0 then .next (i, socket)
  else
    match socket with
    | [] => .next (i, [])
    | bytes :: socket =>
      let inHdr := packetHeaderOfBytes bytes
      if inHdr.receiver = hostName ∧ inHdr.length ≤ maxPacketSize then
        let (sem, woken) := i.messageAvailable.v
        .next ({ i with
          inHdr := inHdr
          inbox := bcopy (bytes.drop packetHeaderSize) i.inbox inHdr.length
          messageAvailable := sem
          worker := if woken.isSome then .testing else i.worker
          arrived := i.arrived ++ [readPacket bytes] }, socket)
      else .fault

/-- The worker passes the test of `messageAvailable->P()`. -/
def wait (i : Input) : Outcome Input :=
  match i.worker with
  | .testing =>
    match i.messageAvailable.pTest () with
    | none => .fault
    | some (sem, true) => .next { i with messageAvailable := sem, worker := .ready }
    | some (sem, false) => .next { i with messageAvailable := sem, worker := .asleep }
  | _ => .disabled

/-- `network->Receive(buffer)`. -/
def receive (i : Input) : Input :=
  let buffer := if i.inHdr.length ≠ 0 then bcopy i.inbox i.buffer i.inHdr.length else i.buffer
  { i with
    inHdr := { i.inHdr with length := 0 }
    buffer := buffer
    copied := i.copied ++ [⟨i.inHdr, buffer.take i.inHdr.length⟩] }

end Input

/-! ### The mail boxes -/

/-- A `Mail *`: equal addresses are equal pointers. -/
structure MailRef where
  address : ℕ
  mail : Mail
  deriving DecidableEq

/-- The mail boxes of a machine. The thread `none` is the postal worker. A thread that is in calls
of `Receive` for several boxes stands for several threads. -/
structure Boxes (T : Type) where
  /-- The number of `Mail` objects made so far. -/
  created : ℕ
  box : Int → SynchState (Option T) MailRef

namespace Boxes

/-- `new MailBox[nBoxes]`. -/
def new : Boxes T := ⟨0, fun _ => .new⟩

/-- An action on one box. -/
def step (bs : Boxes T) (b : Int) (a : SynchAction (Option T) MailRef) : Outcome (Boxes T) :=
  ((bs.box b).next a).map fun s => { bs with box := update bs.box b s }

/-- What the worker does with its buffer: the checks of `PostalDelivery` and the beginning of
`MailBox::Put`. -/
def put (bs : Boxes T) (numBoxes : Int) (m : Mail) : Outcome (Boxes T) :=
  if (0 ≤ m.mailHdr.receiver ∧ m.mailHdr.receiver < numBoxes) ∧ m.mailHdr.length ≤ maxMailSize then
    ((bs.box m.mailHdr.receiver).next (.callAppend none ⟨bs.created, m⟩)).map fun s =>
      { created := bs.created + 1, box := update bs.box m.mailHdr.receiver s }
  else .fault

/-- `PostOfficeInput::Receive` is called. -/
def receive (bs : Boxes T) (numBoxes : Int) (t : T) (b : Int) : Outcome (Boxes T) :=
  if 0 ≤ b ∧ b < numBoxes then bs.step b (.callRemoveFront (some t)) else .fault

/-- `PostOfficeInput::Receive` returns, with the message `item.mail.get`. -/
def received (bs : Boxes T) (t : T) (b : Int) : Outcome (Boxes T) :=
  match (bs.box b).pc (some t) with
  | .removed item =>
    if item.mail.get.mailHdr.length ≤ maxMailSize then bs.step b (.leave (some t)) else .fault
  | _ => .disabled

/-- The code of the list that is not a call or a return. -/
def inside : SynchAction (Option T) MailRef → Bool
  | .callAppend _ _ | .callRemoveFront _ | .leave _ => false
  | _ => true

/-- The messages that `Receive` has taken from a box, in the order of the removals. -/
def taken (bs : Boxes T) (b : Int) : List Mail := (bs.box b).removed.map fun r => r.mail.get

end Boxes

/-! ### The machines and the sockets -/

/-- The machines; `wire src dst` is what is on the way from `src` to the socket of `dst`. -/
structure Net (T : Type) where
  output : Int → Output T
  input : Int → Input
  boxes : Int → Boxes T
  wire : Int → Int → List (List UInt8)

/-- What can happen next on the machine `h`. -/
inductive PostAction (T : Type) where
  /-- A thread calls `Send`. -/
  | send (h : Int) (t : T) (m : Mail)
  /-- A piece of `Send`, or the interrupt of `NetworkOutput`. -/
  | output (h : Int) (a : DevAction T Packet)
  /-- `NetworkOutput::Send`; the packet may get lost, and goes out in a new block of memory. -/
  | transmit (h : Int) (t : T) (lost : Bool) (block : List UInt8)
  /-- The polling interrupt, with the packets from `src` first. -/
  | poll (h src : Int)
  /-- The worker passes the test of `P`. -/
  | wait (h : Int)
  /-- The worker takes the packet and calls `Put`. -/
  | deliver (h : Int)
  /-- `Put` returns. -/
  | delivered (h : Int)
  /-- A thread calls `Receive`. -/
  | receive (h : Int) (t : T) (box : Int)
  /-- A piece of `Put` or `Receive`. -/
  | box (h box : Int) (a : SynchAction (Option T) MailRef)
  /-- `Receive` returns. -/
  | received (h : Int) (t : T) (box : Int)

namespace Net

/-- `sendto` the socket of `dst`. -/
def push (wire : Int → Int → List (List UInt8)) (src dst : Int) (bytes : List UInt8) :
    Int → Int → List (List UInt8) :=
  update wire src (update (wire src) dst (wire src dst ++ [bytes]))

/-- Nothing has happened yet. -/
structure Initial (n : Net T) : Prop where
  output : ∀ h, n.output h = .new
  input : ∀ h, (n.input h).Initial
  boxes : ∀ h, n.boxes h = .new
  wire : ∀ src dst, n.wire src dst = []

/-- One action. -/
def next (numBoxes : Int → Int) (n : Net T) : PostAction T → Outcome (Net T)
  | .send h t m =>
    ((n.output h).send h t m).map fun o => { n with output := update n.output h o }
  | .output h a =>
    ((n.output h).step h a).map fun o => { n with output := update n.output h o }
  | .transmit h t lost block =>
    if block.length = maxWireSize then
      ((n.output h).transmit h t).map fun (o, p) =>
        { n with
          output := update n.output h o
          wire := if lost then n.wire else push n.wire h p.hdr.receiver (wireBytes p block) }
    else .disabled
  | .poll h src =>
    ((n.input h).callBack h (n.wire src h)).map fun (i, socket) =>
      { n with
        input := update n.input h i
        wire := update n.wire src (update (n.wire src) h socket) }
  | .wait h => (n.input h).wait.map fun i => { n with input := update n.input h i }
  | .deliver h =>
    match (n.input h).worker with
    | .ready =>
      let i := (n.input h).receive
      let m := parseMail (n.input h).inHdr i.buffer
      ((n.boxes h).put (numBoxes h) m).map fun bs =>
        { n with
          input := update n.input h { i with worker := .putting m.mailHdr.receiver }
          boxes := update n.boxes h bs }
    | _ => .disabled
  | .delivered h =>
    match (n.input h).worker with
    | .putting b =>
      ((n.boxes h).step b (.leave none)).map fun bs =>
        { n with
          input := update n.input h { n.input h with worker := .testing }
          boxes := update n.boxes h bs }
    | _ => .disabled
  | .receive h t b =>
    ((n.boxes h).receive (numBoxes h) t b).map fun bs =>
      { n with boxes := update n.boxes h bs }
  | .box h b a =>
    if Boxes.inside a then
      ((n.boxes h).step b a).map fun bs => { n with boxes := update n.boxes h bs }
    else .disabled
  | .received h t b =>
    ((n.boxes h).received t b).map fun bs => { n with boxes := update n.boxes h bs }

end Net

/-- What the callers have to keep to. -/
def PostAction.lawful (numBoxes : Int → Int) : PostAction T → Bool
  | .send h _ m => m.Lawful numBoxes h
  | .receive h _ b => 0 ≤ b ∧ b < numBoxes h
  | _ => true

/-- Any number of machines and threads. -/
def postSystem (T : Type) [DecidableEq T] (numBoxes : Int → Int) : LTS (Net T) (PostAction T) :=
  LTS.restrict ⟨Net.Initial, Net.next numBoxes⟩ fun _ a => a.lawful numBoxes

/-! ### What the sending side keeps -/

section Invariants

variable {numBoxes : Int → Int} {h : Int}

/-- The messages of the threads in `Send` and the messages sent. -/
structure Output.Inv (numBoxes : Int → Int) (h : Int) (o : Output T) : Prop where
  device : o.device.Inv
  calling : ∀ t p, o.device.pc t = .calling p →
    ∃ m, o.args t = some m ∧ m.Lawful numBoxes h ∧ p = packet h m
  sent : ∀ m ∈ o.sent, m.Lawful numBoxes h

namespace Output

variable {o : Output T}

omit [DecidableEq T] in
theorem Inv.new : (new : Output T).Inv numBoxes h where
  device := .new
  calling := fun _ _ hpc => nomatch hpc
  sent := fun _ hm => nomatch hm

theorem Inv.send (hi : o.Inv numBoxes h) {t : T} {m : Mail} (hm : m.Lawful numBoxes h) :
    (o.send h t m).Meets fun o' => o'.Inv numBoxes h ∧ o'.sent = o.sent := by
  unfold Output.send
  split
  · rename_i hidle
    rw [send_eq_some hm]
    have hdevice := hi.device.next (networkOutput h) (.call t (packet h m))
    simp only [DevState.next, hidle, Outcome.map_next] at hdevice ⊢
    refine ⟨⟨hdevice, fun u p hu => ?_, hi.sent⟩, rfl⟩
    obtain ⟨rfl, hp⟩ | ⟨hut, hu⟩ := update_eq_cases hu
    · cases hp
      exact ⟨m, update_self .., hm, rfl⟩
    · obtain ⟨m', hargs, hm'⟩ := hi.calling u p hu
      exact ⟨m', (update_of_ne hut ..).trans hargs, hm'⟩
  · trivial

theorem Inv.step (hi : o.Inv numBoxes h) (a : DevAction T Packet) :
    (o.step h a).Meets fun o' => o'.Inv numBoxes h ∧ o'.sent = o.sent := by
  refine Outcome.Meets.ite fun ha => ?_
  have hdevice := hi.device.next (networkOutput h) a
  cases hs : o.device.next (networkOutput h) a with
  | disabled => trivial
  | fault => exact (hdevice.ne_fault hs).elim
  | next d =>
    refine ⟨⟨hdevice.next hs, fun t p ht => ?_, hi.sent⟩, rfl⟩
    refine hi.calling t p (DevState.next_calling hs ?_ ht)
    rintro u r rfl
    cases ha

theorem Inv.transmit (hi : o.Inv numBoxes h) (t : T) :
    (o.transmit h t).Meets fun r => r.1.Inv numBoxes h ∧
      ∃ m, m.Lawful numBoxes h ∧ r.2 = packet h m ∧ r.1.sent = o.sent ++ [m] := by
  unfold Output.transmit
  split
  · rename_i p hpc
    obtain ⟨m, hargs, hm, rfl⟩ := hi.calling t p hpc
    refine Outcome.Meets.ite fun hhold => ?_
    rw [if_pos (accepts_packet hm)]
    have hdevice := hi.device.next (networkOutput h) (.request t)
    cases hs : o.device.next (networkOutput h) (.request t) with
    | disabled => trivial
    | fault => exact (hdevice.ne_fault hs).elim
    | next d =>
      refine ⟨⟨hdevice.next hs, fun u p hu => ?_, fun x hx => ?_⟩, m, hm, rfl, ?_⟩
      · exact hi.calling u p (DevState.next_calling hs nofun hu)
      · rw [hargs] at hx
        obtain hx | hx := List.mem_append.mp hx
        · exact hi.sent x hx
        · obtain rfl : x = m := by simpa using hx
          exact hm
      · show o.sent ++ (o.args t).toList = o.sent ++ [m]
        rw [hargs]
        rfl
  · trivial

end Output

/-! ### What `NetworkInput` and the worker keep -/

/-- A unit of `messageAvailable` stands for the packet in `NetworkInput`. -/
structure Input.Inv (i : Input) : Prop where
  asleep : i.worker = .asleep → i.inHdr.length = 0
  ready : i.worker = .ready → i.inHdr.length ≠ 0
  queue : i.messageAvailable.queue = if i.worker = .asleep then [()] else []
  value : i.messageAvailable.value = if i.inHdr.length = 0 ∨ i.worker = .ready then 0 else 1
  inbox : i.inHdr.length ≤ i.inbox.length
  arrived : i.arrived = i.copied ++ i.buffered

namespace Input

variable {i : Input}

theorem Initial.inv (hi : i.Initial) : i.Inv where
  asleep _ := hi.inHdr
  ready hready := by
    rw [hi.worker] at hready
    cases hready
  queue := by
    rw [hi.worker, hi.messageAvailable]
    rfl
  value := by
    rw [hi.messageAvailable, if_pos (.inl hi.inHdr)]
    rfl
  inbox := by
    rw [hi.inHdr]
    exact Nat.zero_le _
  arrived := by
    rw [hi.arrived, hi.copied, buffered, if_pos hi.inHdr]
    rfl

/-- The unit for a packet that arrives wakes the worker, if it sleeps. -/
theorem Inv.v (hi : i.Inv) (hempty : i.inHdr.length = 0) :
    ∃ woken, i.messageAvailable.v = (⟨1, []⟩, woken) ∧
      (if woken.isSome then .testing else i.worker) ≠ WorkerPc.asleep ∧
      (if woken.isSome then .testing else i.worker) ≠ WorkerPc.ready := by
  have hvalue : i.messageAvailable.value = 0 := by rw [hi.value, if_pos (.inl hempty)]
  have hqueue := hi.queue
  by_cases hasleep : i.worker = .asleep
  · rw [if_pos hasleep] at hqueue
    refine ⟨some (), ?_, nofun, nofun⟩
    rw [Semaphore.v_cons hqueue, hvalue]
    rfl
  · rw [if_neg hasleep] at hqueue
    refine ⟨none, ?_, hasleep, fun hready => hi.ready hready hempty⟩
    rw [Semaphore.v_nil hqueue, hvalue, hqueue]
    rfl

/-- A packet is read when `NetworkInput` holds none, and the worker is told. -/
theorem Inv.callBack (hi : i.Inv) {socket : List (List UInt8)}
    (hsocket : ∀ bytes ∈ socket, ∃ src m, m.Lawful numBoxes src ∧ m.pktHdr.receiver = h ∧
      readPacket bytes = packet src m) :
    (i.callBack h socket).Meets fun r => r.1.Inv ∧ r.1.copied = i.copied ∧
      (r = (i, socket) ∨ ∃ bytes, socket = bytes :: r.2 ∧
        r.1.arrived = i.arrived ++ [readPacket bytes]) := by
  by_cases hempty : i.inHdr.length = 0
  swap
  · unfold Input.callBack
    rw [if_pos hempty]
    exact ⟨hi, rfl, .inl rfl⟩
  cases socket with
  | nil =>
    unfold Input.callBack
    rw [if_neg (not_not.mpr hempty)]
    exact ⟨hi, rfl, .inl rfl⟩
  | cons bytes socket =>
    obtain ⟨src, m, hm, hto, hread⟩ := hsocket bytes List.mem_cons_self
    have hhdr : packetHeaderOfBytes bytes = (packet src m).hdr := by
      show (readPacket bytes).hdr = _
      rw [hread]
    have hdata : (bytes.drop packetHeaderSize).take (packet src m).hdr.length =
        (packet src m).data := by
      rw [← hhdr]
      show (readPacket bytes).data = _
      rw [hread]
    have hlen := length_packet_data hm
    have hne : (packet src m).hdr.length ≠ 0 := Nat.succ_ne_zero _
    obtain ⟨woken, hv, hasleep, hready⟩ := hi.v hempty
    unfold Input.callBack
    rw [if_neg (not_not.mpr hempty)]
    simp only [hhdr, hv, hread]
    rw [if_pos ⟨hto, length_packet_le hm⟩]
    refine ⟨⟨fun hw => (hasleep hw).elim, fun _ => hne, ?_, ?_, ?_, ?_⟩, rfl,
      .inr ⟨bytes, rfl, by rw [hread]⟩⟩
    · rw [if_neg hasleep]
    · rw [if_neg (not_or.mpr ⟨hne, hready⟩)]
    · simp only [bcopy, hdata, List.length_append, hlen]
      omega
    · simp only [buffered, if_neg hne, bcopy, hdata, List.take_left' hlen, hi.arrived]
      rw [if_pos hempty, List.append_nil]

theorem Inv.wait (hi : i.Inv) :
    i.wait.Meets fun i' => i'.Inv ∧ i'.copied = i.copied ∧ i'.arrived = i.arrived := by
  unfold Input.wait
  split
  · rename_i htesting
    have hqueue := hi.queue
    rw [htesting, if_neg nofun] at hqueue
    by_cases hempty : i.inHdr.length = 0
    · have hvalue : i.messageAvailable.value = 0 := by rw [hi.value, if_pos (.inl hempty)]
      rw [Semaphore.pTest_zero hvalue (by simp [hqueue])]
      refine ⟨⟨fun _ => hempty, nofun, ?_, ?_, hi.inbox, hi.arrived⟩, rfl, rfl⟩
      · simp [hqueue]
      · simp [hvalue, hempty]
    · have hvalue : i.messageAvailable.value = 1 := by
        rw [hi.value, if_neg (by simp [hempty, htesting])]
      rw [Semaphore.pTest_ne_zero (by rw [hvalue]; decide)]
      refine ⟨⟨nofun, fun _ => hempty, ?_, ?_, hi.inbox, hi.arrived⟩, rfl, rfl⟩
      · simp [hqueue]
      · rw [hvalue, if_pos (.inr rfl)]
        rfl
  · trivial

/-- `Put` returns to the worker. -/
theorem Inv.delivered (hi : i.Inv) {b : Int} (hputting : i.worker = .putting b) :
    ({ i with worker := .testing } : Input).Inv where
  asleep := nofun
  ready := nofun
  queue := by
    have hqueue := hi.queue
    rwa [hputting, if_neg nofun] at hqueue
  value := by
    have hvalue := hi.value
    simpa [hputting] using hvalue
  inbox := hi.inbox
  arrived := hi.arrived

/-- The worker copies the packet that `NetworkInput` holds. -/
theorem Inv.receive (hi : i.Inv) (hready : i.worker = .ready) (b : Int) :
    ({ i.receive with worker := .putting b } : Input).Inv ∧
    ∃ p rest, i.arrived = i.copied ++ [p] ∧ p.hdr = i.inHdr ∧
      i.receive.copied = i.copied ++ [p] ∧ i.receive.buffer = p.data ++ rest := by
  have hne := hi.ready hready
  have htake : (bcopy i.inbox i.buffer i.inHdr.length).take i.inHdr.length =
      i.inbox.take i.inHdr.length :=
    List.take_left' (List.length_take_of_le hi.inbox)
  have harrived : i.arrived = i.copied ++ [⟨i.inHdr, i.inbox.take i.inHdr.length⟩] := by
    rw [hi.arrived, buffered, if_neg hne]
  have hcopied : i.receive.copied = i.copied ++ [⟨i.inHdr, i.inbox.take i.inHdr.length⟩] := by
    simp only [Input.receive, if_pos hne, htake]
  refine ⟨⟨nofun, nofun, ?_, ?_, Nat.zero_le _, ?_⟩, _, i.buffer.drop i.inHdr.length, harrived, rfl,
    hcopied, ?_⟩
  · have hqueue := hi.queue
    rw [hready, if_neg nofun] at hqueue
    exact hqueue
  · have hvalue := hi.value
    rw [if_pos (.inr hready)] at hvalue
    exact hvalue
  · show i.arrived = i.receive.copied ++ []
    rw [List.append_nil, harrived, hcopied]
  · simp only [Input.receive, if_pos hne, bcopy]

end Input

/-! ### What a mail box keeps -/

/-- The messages that have come to a box: those in its history and the one the worker is putting. -/
def refs (s : SynchState (Option T) MailRef) : List MailRef := s.appended ++ (s.pc none).toAppend

/-- The box has got the messages `mails`, and only the worker puts messages into it. -/
structure BoxInv (created : ℕ) (mails : List Mail) (s : SynchState (Option T) MailRef) : Prop where
  cond : (condSystem (Option T)).Reachable s.cond
  fifo : s.appended = s.removed ++ s.list
  worker : ∀ t, (s.pc (some t)).toAppend = []
  removed : ∀ t r, s.pc t = .removed r → r ∈ s.removed
  mails : (refs s).map MailRef.mail = mails
  nodup : ((refs s).map MailRef.address).Nodup
  created : ∀ r ∈ refs s, r.address < created

namespace BoxInv

variable {created : ℕ} {mails : List Mail} {s s' : SynchState (Option T) MailRef}
  {a : SynchAction (Option T) MailRef}

theorem new : BoxInv 0 [] (SynchState.new : SynchState (Option T) MailRef) where
  cond := .init rfl
  fifo := rfl
  worker _ := rfl
  removed _ _ hpc := nomatch hpc
  mails := rfl
  nodup := List.nodup_nil
  created _ hr := nomatch hr

/-- What any action does to the part of the invariant that is about the list. -/
theorem cond_next (hb : BoxInv created mails s)
    (hs : s.next a = .next s') : (condSystem (Option T)).Reachable s'.cond := by
  obtain heq | ⟨k, hk⟩ := SynchState.next_cond hs
  · rw [heq]
    exact hb.cond
  · exact hb.cond.step hk

/-- Nothing but a call of `Append` brings a message. -/
theorem refs_next (hb : BoxInv created mails s)
    (hs : s.next a = .next s') (ha : ∀ t r, a ≠ .callAppend t r) :
    refs s' = refs s ∧ ∀ t, (s'.pc (some t)).toAppend = [] := by
  obtain ⟨happ, hpc⟩ | ⟨t, r, ht, happ, hpc⟩ := SynchState.next_toAppend hs ha
  · exact ⟨by rw [refs, happ, hpc, refs], fun t => by rw [hpc, hb.worker t]⟩
  · cases t with
    | none =>
      refine ⟨?_, fun t => ?_⟩
      · rw [refs, refs, happ, hpc, ht, update_self]
        simp [ListPc.toAppend]
      · rw [hpc, update_of_ne (Option.some_ne_none t)]
        exact hb.worker t
    | some t =>
      have hnone := hb.worker t
      rw [ht] at hnone
      cases hnone

theorem next (hb : BoxInv created mails s)
    (hs : s.next a = .next s') (ha : ∀ t r, a ≠ .callAppend t r) : BoxInv created mails s' := by
  obtain ⟨hrefs, hworker⟩ := hb.refs_next hs ha
  exact {
    cond := hb.cond_next hs
    fifo := SynchState.next_fifo hs hb.fifo
    worker := hworker
    removed := SynchState.next_removed hs hb.removed
    mails := by rw [hrefs, hb.mails]
    nodup := by rw [hrefs]; exact hb.nodup
    created := by rw [hrefs]; exact hb.created }

/-- The worker calls `Append` with a new `Mail`. -/
theorem call {m : Mail} (hb : BoxInv created mails s)
    (hs : s.next (.callAppend none ⟨created, m⟩) = .next s') :
    BoxInv (created + 1) (mails ++ [m]) s' := by
  have hidle : s.pc none = .idle ∧
      s' = { s with pc := update s.pc none (.appending ⟨created, m⟩) } := by
    simp only [SynchState.next] at hs
    split at hs <;> cases hs
    exact ⟨‹_›, rfl⟩
  have hrefs : refs s' = refs s ++ [⟨created, m⟩] := by
    rw [hidle.2, refs, refs, hidle.1]
    simp [ListPc.toAppend]
  exact {
    cond := hb.cond_next hs
    fifo := SynchState.next_fifo hs hb.fifo
    worker := fun t => by
      rw [hidle.2]
      simpa using hb.worker t
    removed := SynchState.next_removed hs hb.removed
    mails := by rw [hrefs, List.map_append, hb.mails]; rfl
    nodup := by
      rw [hrefs, List.map_append]
      refine Lib.nodup_append_singleton hb.nodup fun hmem => ?_
      obtain ⟨r, hr, haddress⟩ := List.mem_map.mp hmem
      exact (hb.created r hr).ne haddress
    created := by
      rw [hrefs]
      intro r hr
      obtain hr | hr := List.mem_append.mp hr
      · exact (hb.created r hr).trans (Nat.lt_succ_self _)
      · obtain rfl := List.mem_singleton.mp hr
        exact Nat.lt_succ_self _ }

theorem mono {created' : ℕ} (hb : BoxInv created mails s) (hle : created ≤ created') :
    BoxInv created' mails s :=
  { hb with created := fun r hr => (hb.created r hr).trans_le hle }

/-- No assertion of the list fails: the worker's `Mail` is a new one. -/
theorem no_fault (hb : BoxInv created mails s) (a : SynchAction (Option T) MailRef) :
    s.next a ≠ .fault := by
  refine SynchState.no_fault (cond_inv hb.cond) a ?_
  cases a with
  | append t =>
    simp only [SynchState.fresh]
    split
    · rename_i r hpc
      refine decide_eq_true fun hr => ?_
      cases t with
      | none =>
        -- A message in the list has another address.
        have hnodup := hb.nodup
        rw [refs, hpc, List.map_append] at hnodup
        have happ : r ∈ s.appended := by
          rw [hb.fifo]
          exact List.mem_append_right _ hr
        have hdisj := (List.nodup_append.mp hnodup).2.2
        exact hdisj _ (List.mem_map_of_mem happ) r.address (by simp [ListPc.toAppend]) rfl
      | some t =>
        have hnone := hb.worker t
        rw [hpc] at hnone
        cases hnone
    · rfl
  | _ => rfl

end BoxInv

/-- The box `b` has got the messages `mails b`. -/
def Boxes.Inv (bs : Boxes T) (mails : Int → List Mail) : Prop :=
  ∀ b, BoxInv bs.created (mails b) (bs.box b)

namespace Boxes

variable {bs : Boxes T} {mails : Int → List Mail}

theorem Inv.step (hb : bs.Inv mails) (b : Int) {a : SynchAction (Option T) MailRef}
    (ha : ∀ t r, a ≠ .callAppend t r) : (bs.step b a).Meets fun bs' => bs'.Inv mails := by
  unfold Boxes.step
  cases hs : (bs.box b).next a with
  | disabled => trivial
  | fault => exact ((hb b).no_fault a hs).elim
  | next s =>
    intro b'
    by_cases hbb : b' = b
    · subst hbb
      simpa using (hb b').next hs ha
    · simpa [hbb] using hb b'

theorem Inv.receive (hb : bs.Inv mails) {num : Int} (t : T) {b : Int} (hnum : 0 ≤ b ∧ b < num) :
    (bs.receive num t b).Meets fun bs' => bs'.Inv mails := by
  unfold Boxes.receive
  rw [if_pos hnum]
  exact hb.step b nofun

theorem Inv.received (hb : bs.Inv mails) (t : T) (b : Int)
    (hmails : ∀ m ∈ mails b, m.mailHdr.length ≤ maxMailSize) :
    (bs.received t b).Meets fun bs' => bs'.Inv mails := by
  unfold Boxes.received
  split
  · rename_i r hpc
    have hmem : r ∈ refs (bs.box b) := by
      rw [refs, (hb b).fifo]
      exact List.mem_append_left _ (List.mem_append_left _ ((hb b).removed _ r hpc))
    have hmail : r.mail ∈ mails b := by
      rw [← (hb b).mails]
      exact List.mem_map_of_mem hmem
    have hlen : r.mail.get.mailHdr.length ≤ maxMailSize := hmails r.mail hmail
    rw [if_pos hlen]
    exact hb.step b nofun
  · trivial

/-- The worker puts a message into its box. -/
theorem Inv.put (hb : bs.Inv mails) {num : Int} {m : Mail}
    (hnum : 0 ≤ m.mailHdr.receiver ∧ m.mailHdr.receiver < num)
    (hlen : m.mailHdr.length ≤ maxMailSize) : (bs.put num m).Meets fun bs' =>
      bs'.Inv fun b => mails b ++ if m.mailHdr.receiver = b then [m] else [] := by
  unfold Boxes.put
  rw [if_pos ⟨hnum, hlen⟩]
  cases hs : (bs.box m.mailHdr.receiver).next (.callAppend none ⟨bs.created, m⟩) with
  | disabled => trivial
  | fault => exact ((hb _).no_fault _ hs).elim
  | next s =>
    intro b
    by_cases hbm : m.mailHdr.receiver = b
    · subst hbm
      simpa using (hb m.mailHdr.receiver).call hs
    · simpa [hbm, Ne.symm hbm] using (hb b).mono (Nat.le_succ _)

end Boxes

/-! ### What the machines keep -/

/-- The message in a packet. -/
def mailOf (p : Packet) : Mail := parseMail p.hdr p.data

theorem mailOf_packet {m : Mail} (hm : m.Lawful numBoxes h) : mailOf (packet h m) = posted h m := by
  have hparse := parseMail_packet hm []
  rwa [List.append_nil] at hparse

/-- The messages in a list of packets that are for the box `b`. -/
def mailsFor (packets : List Packet) (b : Int) : List Mail :=
  (packets.map mailOf).filter fun m => m.mailHdr.receiver = b

theorem mailsFor_append (packets : List Packet) (p : Packet) (b : Int) :
    mailsFor (packets ++ [p]) b =
      mailsFor packets b ++ if (mailOf p).mailHdr.receiver = b then [mailOf p] else [] := by
  simp [mailsFor, List.filter_append, List.filter_cons]

/-- The packets that `src` has sent to `dst`. -/
def packetsTo (o : Output T) (src dst : Int) : List Packet :=
  (o.sent.filter fun m => m.pktHdr.receiver = dst).map (packet src)

/-- The packets from `src`, those read and those on the way, are some of those sent, in their
order. -/
def InOrder (src : Int) (arrived : List Packet) (wire : List (List UInt8)) (sent : List Packet) :
    Prop :=
  (arrived.filter (fun p => p.hdr.sender = src) ++ wire.map readPacket).Sublist sent

namespace InOrder

variable {src : Int} {arrived sent : List Packet} {wire : List (List UInt8)}

theorem lose (ho : InOrder src arrived wire sent) (p : Packet) :
    InOrder src arrived wire (sent ++ [p]) :=
  ho.trans (List.sublist_append_left _ _)

theorem push (ho : InOrder src arrived wire sent) (bytes : List UInt8) :
    InOrder src arrived (wire ++ [bytes]) (sent ++ [readPacket bytes]) := by
  unfold InOrder
  rw [List.map_append, ← List.append_assoc]
  exact List.Sublist.append ho (List.Sublist.refl _)

theorem read {bytes : List UInt8} (ho : InOrder src arrived (bytes :: wire) sent)
    (hsrc : (readPacket bytes).hdr.sender = src) :
    InOrder src (arrived ++ [readPacket bytes]) wire sent := by
  unfold InOrder
  rw [List.filter_append, List.filter_singleton, decide_eq_true hsrc, List.append_assoc]
  exact ho

theorem read_other {p : Packet} (ho : InOrder src arrived wire sent) (hsrc : p.hdr.sender ≠ src) :
    InOrder src (arrived ++ [p]) wire sent := by
  unfold InOrder
  rw [List.filter_append, List.filter_singleton, decide_eq_false hsrc, cond_false, List.append_nil]
  exact ho

end InOrder

/-- The invariant. -/
structure Net.Inv (numBoxes : Int → Int) (n : Net T) : Prop where
  output : ∀ h, (n.output h).Inv numBoxes h
  input : ∀ h, (n.input h).Inv
  boxes : ∀ h, (n.boxes h).Inv (mailsFor (n.input h).copied)
  wire : ∀ src dst,
    InOrder src (n.input dst).arrived (n.wire src dst) (packetsTo (n.output src) src dst)

namespace Net

variable {n : Net T}

theorem Initial.inv (hn : n.Initial) : n.Inv numBoxes where
  output h := by
    rw [hn.output h]
    exact .new
  input h := (hn.input h).inv
  boxes h b := by
    rw [hn.boxes h, (hn.input h).copied]
    exact .new
  wire src dst := by
    rw [(hn.input dst).arrived, hn.wire]
    exact List.nil_sublist _

theorem push_apply (wire : Int → Int → List (List UInt8)) (src dst : Int) (bytes : List UInt8)
    (x y : Int) : push wire src dst bytes x y =
      if x = src ∧ y = dst then wire src dst ++ [bytes] else wire x y := by
  unfold push
  by_cases hx : x = src
  · subst hx
    by_cases hy : y = dst
    · subst hy
      simp
    · simp [hy]
  · simp [hx]

variable (hn : n.Inv numBoxes)

include hn

/-- A packet that was sent from one machine to another. -/
theorem Inv.of_mem_packetsTo {src dst : Int} {p : Packet}
    (hp : p ∈ packetsTo (n.output src) src dst) :
    ∃ m, m.Lawful numBoxes src ∧ m.pktHdr.receiver = dst ∧ p = packet src m := by
  obtain ⟨m, hm, rfl⟩ := List.mem_map.mp hp
  obtain ⟨hsent, hto⟩ := List.mem_filter.mp hm
  exact ⟨m, (hn.output src).sent m hsent, of_decide_eq_true hto, rfl⟩

theorem Inv.of_wire {src dst : Int} {bytes : List UInt8}
    (hbytes : bytes ∈ n.wire src dst) :
    ∃ m, m.Lawful numBoxes src ∧ m.pktHdr.receiver = dst ∧ readPacket bytes = packet src m :=
  hn.of_mem_packetsTo ((hn.wire src dst).subset
    (List.mem_append_right _ (List.mem_map_of_mem hbytes)))

theorem Inv.of_arrived {dst : Int} {p : Packet}
    (hp : p ∈ (n.input dst).arrived) :
    ∃ src m, m.Lawful numBoxes src ∧ m.pktHdr.receiver = dst ∧ p = packet src m := by
  refine ⟨p.hdr.sender, hn.of_mem_packetsTo ((hn.wire p.hdr.sender dst).subset ?_)⟩
  exact List.mem_append_left _ (List.mem_filter.mpr ⟨hp, decide_eq_true rfl⟩)

theorem Inv.of_mailsFor {dst b : Int} {x : Mail}
    (hx : x ∈ mailsFor (n.input dst).copied b) :
    ∃ src m, m.Lawful numBoxes src ∧ x = posted src m := by
  obtain ⟨p, hp, rfl⟩ := List.mem_map.mp (List.mem_of_mem_filter hx)
  have harrived : p ∈ (n.input dst).arrived := by
    rw [(hn.input dst).arrived]
    exact List.mem_append_left _ hp
  obtain ⟨src, m, hm, -, rfl⟩ := hn.of_arrived harrived
  exact ⟨src, m, hm, mailOf_packet hm⟩

/-- The sending side of a machine moves and sends nothing. -/
theorem Inv.setOutput {o : Output T}
    (ho : o.Inv numBoxes h ∧ o.sent = (n.output h).sent) :
    ({ n with output := update n.output h o } : Net T).Inv numBoxes where
  output := (Function.forall_update_iff n.output fun h o => o.Inv numBoxes h).mpr
    ⟨ho.1, fun h _ => hn.output h⟩
  input := hn.input
  boxes := hn.boxes
  wire src dst := by
    show InOrder src _ _ (packetsTo (update n.output h o src) src dst)
    rw [packetsTo, apply_update_of_eq Output.sent ho.2]
    exact hn.wire src dst

/-- The mail boxes of a machine move, and get no message. -/
theorem Inv.setBoxes {bs : Boxes T}
    (hb : bs.Inv (mailsFor (n.input h).copied)) :
    ({ n with boxes := update n.boxes h bs } : Net T).Inv numBoxes where
  output := hn.output
  input := hn.input
  boxes := (Function.forall_update_iff n.boxes fun h bs => bs.Inv (mailsFor (n.input h).copied)).mpr
    ⟨hb, fun h _ => hn.boxes h⟩
  wire := hn.wire

/-- The worker moves, and with it the mail boxes. -/
theorem Inv.setInput {i : Input} {bs : Boxes T} (hi : i.Inv)
    (harrived : i.arrived = (n.input h).arrived) (hb : bs.Inv (mailsFor i.copied)) :
    ({ n with
      input := update n.input h i
      boxes := update n.boxes h bs } : Net T).Inv numBoxes where
  output := hn.output
  input := (Function.forall_update_iff n.input fun _ i => i.Inv).mpr ⟨hi, fun h _ => hn.input h⟩
  boxes h' b := by
    by_cases hh : h' = h
    · subst hh
      simpa using hb b
    · simpa [hh] using hn.boxes h' b
  wire src dst := by
    show InOrder src (update n.input h i dst).arrived _ _
    rw [apply_update_of_eq Input.arrived harrived]
    exact hn.wire src dst

/-- A packet is given to the device, which may lose it. -/
theorem Inv.transmit {o : Output T} {m : Mail} (lost : Bool)
    (block : List UInt8) (ho : o.Inv numBoxes h) (hm : m.Lawful numBoxes h)
    (hsent : o.sent = (n.output h).sent ++ [m]) :
    ({ n with
      output := update n.output h o
      wire := if lost then n.wire else
        push n.wire h (packet h m).hdr.receiver (wireBytes (packet h m) block) } : Net T).Inv
      numBoxes where
  output := (Function.forall_update_iff n.output fun h o => o.Inv numBoxes h).mpr
    ⟨ho, fun h _ => hn.output h⟩
  input := hn.input
  boxes := hn.boxes
  wire src dst := by
    have hold := hn.wire src dst
    show InOrder src (n.input dst).arrived
      ((if lost then n.wire
        else push n.wire h (packet h m).hdr.receiver (wireBytes (packet h m) block)) src dst)
      (packetsTo (update n.output h o src) src dst)
    by_cases hsrc : src = h
    · subst hsrc
      have hto : packetsTo o src dst = packetsTo (n.output src) src dst ++
          if m.pktHdr.receiver = dst then [packet src m] else [] := by
        rw [packetsTo, packetsTo, hsent, List.filter_append, List.map_append]
        by_cases hdst : m.pktHdr.receiver = dst
        · simp [hdst]
        · simp [hdst]
      rw [update_self, hto]
      by_cases hdst : m.pktHdr.receiver = dst
      · subst hdst
        rw [if_pos rfl]
        cases lost with
        | true => exact hold.lose _
        | false =>
          have hpush := hold.push (wireBytes (packet src m) block)
          rw [readPacket_wireBytes hm] at hpush
          show InOrder src _ (push _ _ _ _ _ _) _
          rwa [push_apply, if_pos ⟨rfl, rfl⟩]
      · rw [if_neg hdst, List.append_nil]
        cases lost with
        | true => exact hold
        | false =>
          show InOrder src _ (push _ _ _ _ _ _) _
          rwa [push_apply, if_neg fun hc => hdst hc.2.symm]
    · rw [update_of_ne hsrc]
      cases lost with
      | true => exact hold
      | false =>
        show InOrder src _ (push _ _ _ _ _ _) _
        rwa [push_apply, if_neg fun hc => hsrc hc.1]

theorem Inv.poll {src : Int} {r : Input × List (List UInt8)} (hi : r.1.Inv)
    (hcopied : r.1.copied = (n.input h).copied)
    (hr : r = (n.input h, n.wire src h) ∨ ∃ bytes, n.wire src h = bytes :: r.2 ∧
      r.1.arrived = (n.input h).arrived ++ [readPacket bytes]) :
    ({ n with
      input := update n.input h r.1
      wire := update n.wire src (update (n.wire src) h r.2) } : Net T).Inv
      numBoxes where
  output := hn.output
  input := (Function.forall_update_iff n.input fun _ i => i.Inv).mpr ⟨hi, fun h _ => hn.input h⟩
  boxes h' := by
    show (n.boxes h').Inv (mailsFor (update n.input h r.1 h').copied)
    rw [apply_update_of_eq Input.copied hcopied]
    exact hn.boxes h'
  wire x dst := by
    have hold := hn.wire x dst
    show InOrder x (update n.input h r.1 dst).arrived
      (update n.wire src (update (n.wire src) h r.2) x dst) _
    obtain rfl | ⟨bytes, hwire, harrived⟩ := hr
    · simpa using hold
    by_cases hdst : dst = h
    · subst hdst
      rw [update_self, harrived]
      -- The packet comes from `src`, as its header says.
      have hmem : bytes ∈ n.wire src dst := by
        rw [hwire]
        exact List.mem_cons_self
      obtain ⟨m, -, -, hread⟩ := hn.of_wire hmem
      have hsender : (readPacket bytes).hdr.sender = src := by rw [hread]; rfl
      by_cases hx : x = src
      · subst hx
        rw [update_self, update_self]
        rw [hwire] at hold
        exact hold.read hsender
      · rw [update_of_ne hx]
        exact hold.read_other (by rw [hsender]; exact Ne.symm hx)
    · rw [update_of_ne hdst]
      by_cases hx : x = src
      · subst hx
        rwa [update_self, update_of_ne hdst]
      · rwa [update_of_ne hx]

/-- The worker takes the packet out of `NetworkInput` and calls `Put`. -/
theorem Inv.deliver (hready : (n.input h).worker = .ready) :
    (n.next numBoxes (.deliver h)).Meets (Inv numBoxes) := by
  obtain ⟨-, p, rest, harrived, hhdr, hcopied, hbuffer⟩ := (hn.input h).receive hready 0
  have hp : p ∈ (n.input h).arrived := by
    rw [harrived]
    exact List.mem_append_right _ List.mem_cons_self
  obtain ⟨src, m, hm, hto, rfl⟩ := hn.of_arrived hp
  have hmail : parseMail (n.input h).inHdr (n.input h).receive.buffer = posted src m := by
    rw [← hhdr, hbuffer]
    exact parseMail_packet hm rest
  have hbox : 0 ≤ (posted src m).mailHdr.receiver ∧
      (posted src m).mailHdr.receiver < numBoxes h := by
    rw [← hto]
    exact hm.exists_box
  simp only [Net.next, hready, hmail]
  refine ((hn.boxes h).put hbox hm.size).map fun bs hbs => ?_
  refine hn.setInput ((hn.input h).receive hready _).1 rfl ?_
  show bs.Inv (mailsFor (n.input h).receive.copied)
  rw [hcopied]
  intro b
  rw [mailsFor_append, mailOf_packet hm]
  exact hbs b

/-- Every lawful action keeps the invariant and trips no check. -/
theorem Inv.next {a : PostAction T} (ha : a.lawful numBoxes = true) :
    (n.next numBoxes a).Meets (Inv numBoxes) := by
  cases a with
  | send h t m => exact ((hn.output h).send (of_decide_eq_true ha)).map fun o ho => hn.setOutput ho
  | output h a => exact ((hn.output h).step a).map fun o ho => hn.setOutput ho
  | transmit h t lost block =>
    refine Outcome.Meets.ite fun _ => ?_
    refine ((hn.output h).transmit t).map ?_
    rintro ⟨o, p⟩ ⟨ho, m, hm, rfl, hsent⟩
    exact hn.transmit lost block ho hm hsent
  | poll h src =>
    refine ((hn.input h).callBack fun bytes hbytes => ⟨src, hn.of_wire hbytes⟩).map ?_
    rintro r ⟨hi, hcopied, hr⟩
    exact hn.poll hi hcopied hr
  | wait h =>
    refine (hn.input h).wait.map ?_
    rintro i ⟨hi, hcopied, harrived⟩
    have hb : (n.boxes h).Inv (mailsFor i.copied) := by
      rw [hcopied]
      exact hn.boxes h
    have hnext := hn.setInput hi harrived hb
    rwa [update_eq_self] at hnext
  | deliver h =>
    cases hworker : (n.input h).worker with
    | ready => exact hn.deliver hworker
    | testing | asleep | putting _ =>
      simp only [Net.next, hworker]
      trivial
  | delivered h =>
    simp only [Net.next]
    split
    · rename_i b hputting
      refine ((hn.boxes h).step b (a := .leave none) nofun).map fun bs hbs => ?_
      exact hn.setInput ((hn.input h).delivered hputting) rfl hbs
    · trivial
  | receive h t b =>
    exact ((hn.boxes h).receive t (of_decide_eq_true ha)).map fun bs hbs => hn.setBoxes hbs
  | box h b a =>
    refine Outcome.Meets.ite fun hinside => ?_
    refine ((hn.boxes h).step b ?_).map fun bs hbs => hn.setBoxes hbs
    rintro t r rfl
    cases hinside
  | received h t b =>
    refine ((hn.boxes h).received t b fun x hx => ?_).map fun bs hbs => hn.setBoxes hbs
    obtain ⟨src, m, hm, rfl⟩ := hn.of_mailsFor hx
    exact hm.size

end Net

theorem post_inv {n : Net T} (hn : (postSystem T numBoxes).Reachable n) :
    n.Inv numBoxes ∧ ∀ a, (postSystem T numBoxes).next n a ≠ .fault :=
  hn.safe (I := Net.Inv numBoxes) (fun _ => Net.Initial.inv) fun _ _ hi => Outcome.Meets.ite hi.next

/-! ### Delivery -/

/-- The messages of `src` that have come to the box `b` of `dst` are some of those it sent there. -/
theorem Net.Inv.mailsFor_sublist {n : Net T} (hn : n.Inv numBoxes) (src dst b : Int) :
    ((mailsFor (n.input dst).copied b).filter fun m => m.pktHdr.sender = src).Sublist
      (((n.output src).sent.filter fun m =>
        m.pktHdr.receiver = dst ∧ m.mailHdr.receiver = b).map (posted src)) := by
  have hcopied : (n.input dst).copied.Sublist (n.input dst).arrived := by
    rw [(hn.input dst).arrived]
    exact List.sublist_append_left _ _
  have harrived : ((n.input dst).arrived.filter fun p => p.hdr.sender = src).Sublist
      (packetsTo (n.output src) src dst) :=
    (List.sublist_append_left _ _).trans (hn.wire src dst)
  -- The sender stands in the header of the packet, so the packets can be selected first.
  have hselect : ((mailsFor (n.input dst).copied b).filter fun m => m.pktHdr.sender = src) =
      mailsFor ((n.input dst).copied.filter fun p => p.hdr.sender = src) b := by
    unfold mailsFor
    rw [List.filter_comm, List.filter_map]
    rfl
  -- What was sent to `dst`, taken out of its packets.
  have hsent : mailsFor (packetsTo (n.output src) src dst) b =
      ((n.output src).sent.filter fun m =>
        m.pktHdr.receiver = dst ∧ m.mailHdr.receiver = b).map (posted src) := by
    have hmails : (packetsTo (n.output src) src dst).map mailOf =
        ((n.output src).sent.filter fun m => m.pktHdr.receiver = dst).map (posted src) := by
      unfold packetsTo
      rw [List.map_map]
      refine List.map_congr_left fun m hm => ?_
      exact mailOf_packet ((hn.output src).sent m (List.mem_of_mem_filter hm))
    unfold mailsFor
    rw [hmails, List.filter_map, List.filter_filter]
    congr 1
    refine List.filter_congr fun m _ => ?_
    rw [Bool.decide_and]
    exact Bool.and_comm ..
  rw [hselect, ← hsent]
  exact (((hcopied.filter _).trans harrived).map mailOf).filter _

/-- **The post office delivers in order, at most once and uncorrupted.** In every state that any
number of machines and threads can reach: the messages from `src` that `Receive` has taken from a
box, in the order of the removals, are a subsequence of the messages that `src` has sent to the box,
with the sender's name, its mail header and its data; a `Receive` returns one of them; the packets
that `NetworkInput` has read are those that the worker has copied and the one that it holds, which
the polling interrupt does not touch; and no assertion fails. -/
theorem post_office_delivers (T : Type) [DecidableEq T] (numBoxes : Int → Int) (n : Net T)
    (hn : (postSystem T numBoxes).Reachable n) :
    (∀ src dst b, (((n.boxes dst).taken b).filter fun m => m.pktHdr.sender = src).Sublist
      (((n.output src).sent.filter fun m =>
        m.pktHdr.receiver = dst ∧ m.mailHdr.receiver = b).map (posted src))) ∧
    (∀ dst b t r, ((n.boxes dst).box b).pc (some t) = .removed r →
      r.mail.get ∈ (n.boxes dst).taken b) ∧
    (∀ dst, (n.input dst).arrived = (n.input dst).copied ++ (n.input dst).buffered) ∧
    (∀ dst src n', (n.input dst).buffered ≠ [] → n.next numBoxes (.poll dst src) = .next n' →
      n'.input dst = n.input dst) ∧
    ∀ a, (postSystem T numBoxes).next n a ≠ .fault := by
  obtain ⟨hinv, hfault⟩ := post_inv hn
  refine ⟨fun src dst b => ?_, fun dst b t r hr => ?_, fun dst => (hinv.input dst).arrived,
    fun dst src n' hbuffered hs => ?_, hfault⟩
  · -- What was taken has come to the box, and `Get` copies all of it.
    have hbox := hinv.boxes dst b
    have hremoved : (((n.boxes dst).box b).removed.map MailRef.mail).Sublist
        (mailsFor (n.input dst).copied b) := by
      rw [← hbox.mails, refs, hbox.fifo]
      refine List.Sublist.map _ ?_
      exact (List.sublist_append_left _ _).trans (List.sublist_append_left _ _)
    have htaken : (n.boxes dst).taken b = ((n.boxes dst).box b).removed.map MailRef.mail := by
      refine List.map_congr_left fun r hr => ?_
      obtain ⟨src, m, -, hmail⟩ := hinv.of_mailsFor (hremoved.subset (List.mem_map_of_mem hr))
      rw [hmail, get_posted]
    rw [htaken]
    exact (hremoved.filter _).trans (hinv.mailsFor_sublist src dst b)
  · exact List.mem_map_of_mem ((hinv.boxes dst b).removed _ r hr)
  · have hne : (n.input dst).inHdr.length ≠ 0 := by
      intro hzero
      exact hbuffered (if_pos hzero)
    simp only [Net.next, Input.callBack, if_pos hne, Outcome.map_next] at hs
    cases hs
    exact update_self ..

end Invariants

/-- Two machines before anything has happened. -/
def idleNet : Net Unit where
  output := fun _ => .new
  input := fun _ => ⟨⟨0, 0, 0⟩, [], .new 0, .testing, [], [], []⟩
  boxes := fun _ => .new
  wire := fun _ _ => []

/-- The message "Hi" from machine 0 to the box 3 of machine 1. -/
def greeting : Mail := ⟨⟨1, 0, 0⟩, ⟨3, 4, 2⟩, [72, 105]⟩

/-- The message goes through all of the layers. -/
theorem post_office_delivers_greeting :
    ∃ n : Net Unit, (n.boxes 1).taken 3 = [posted 0 greeting] ∧
      (((n.boxes 1).taken 3).filter fun m => m.pktHdr.sender = 0).Sublist
        (((n.output 0).sent.filter fun m =>
          m.pktHdr.receiver = 1 ∧ m.mailHdr.receiver = 3).map (posted 0)) := by
  obtain ⟨n, hn, htaken⟩ := (postSystem Unit fun _ => 10).reaches (s := idleNet)
    ⟨fun _ => rfl, fun _ => ⟨rfl, rfl, rfl, rfl, rfl⟩, fun _ => rfl, fun _ _ => rfl⟩
    [.send 0 () greeting, .output 0 (.lock (.acquire ())), .output 0 (.lock (.setHolder ())),
      .wait 1, .transmit 0 () false (List.replicate maxWireSize 0), .poll 1 0, .wait 1, .deliver 1,
      .box 1 3 (.lock (.acquire none)), .box 1 3 (.lock (.setHolder none)), .box 1 3 (.append none),
      .box 1 3 (.lock (.release none)), .box 1 3 (.lock (.releaseV none)), .delivered 1,
      .receive 1 () 3, .box 1 3 (.lock (.acquire (some ()))),
      .box 1 3 (.lock (.setHolder (some ()))), .box 1 3 (.test (some ()))]
    (fun n => (n.boxes 1).taken 3 = [posted 0 greeting]) (by decide +kernel)
  exact ⟨n, htaken, (post_office_delivers Unit _ n hn).1 0 1 3⟩

end Nachos.Network
