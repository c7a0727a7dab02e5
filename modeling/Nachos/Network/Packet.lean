import Mathlib.Tactic.IntervalCases
import Nachos.Machine.SynchDevice

namespace Nachos.Network

open Base Machine

/-!
# Network — messages on the wire

A message of the post office travels inside two headers of the same layout, two `int`s and one
`unsigned`: `PostOfficeOutput::Send` puts a `MailHeader` in front of the data, `NetworkOutput::Send`
a `PacketHeader` in front of that, and the other side takes them off again. Everything is copied
between `char` arrays that hold garbage behind the bytes in use.

* `readPacket_wireBytes` — `NetworkInput::CallBack` finds the packet that was sent;
* `parseMail_packet` — the postal worker finds the message that was put into it.
-/

/-! ### Headers -/

/-- The value can be held by an `int`. -/
def IsInt (x : Int) : Prop := minInt ≤ x ∧ x ≤ maxInt

instance : DecidablePred IsInt := fun _ => inferInstanceAs (Decidable (_ ∧ _))

/-- Two `int`s and an `unsigned` in memory. -/
def headerBytes (x y : Int) (n : ℕ) : List UInt8 :=
  (List.range 4).map (intByte x) ++ (List.range 4).map (intByte y) ++
  (List.range 4).map (wordByte n)

/-- The `int` at an offset. -/
def intAt (bytes : List UInt8) (o : ℕ) : Int := intOfBytes fun j => bytes.getD (o + j) 0

/-- The `unsigned` at an offset. -/
def unsignedAt (bytes : List UInt8) (o : ℕ) : ℕ := wordOfBytes fun j => bytes.getD (o + j) 0

@[simp] theorem length_headerBytes (x y : Int) (n : ℕ) : (headerBytes x y n).length = 12 := rfl

section RoundTrip

variable {x y : Int} {n : ℕ} (rest : List UInt8)

theorem intAt_zero_headerBytes (hx : IsInt x) : intAt (headerBytes x y n ++ rest) 0 = x := by
  have hbytes : intAt (headerBytes x y n ++ rest) 0 = intOfBytes (intByte x) := by
    refine intOfBytes_congr fun j hj => ?_
    interval_cases j <;> rfl
  rw [hbytes, intOfBytes_intByte, wrap32_eq_self hx.1 hx.2]

theorem intAt_four_headerBytes (hy : IsInt y) : intAt (headerBytes x y n ++ rest) 4 = y := by
  have hbytes : intAt (headerBytes x y n ++ rest) 4 = intOfBytes (intByte y) := by
    refine intOfBytes_congr fun j hj => ?_
    interval_cases j <;> rfl
  rw [hbytes, intOfBytes_intByte, wrap32_eq_self hy.1 hy.2]

theorem unsignedAt_headerBytes (hn : n < 4294967296) :
    unsignedAt (headerBytes x y n ++ rest) 8 = n := by
  have hbytes : unsignedAt (headerBytes x y n ++ rest) 8 = wordOfBytes (wordByte n) := by
    refine wordOfBytes_congr fun j hj => ?_
    interval_cases j <;> rfl
  rw [hbytes, wordOfBytes_wordByte hn]

end RoundTrip

/-- `MailHeader`. -/
structure MailHeader where
  /-- `to`. -/
  receiver : Int
  /-- `from`. -/
  sender : Int
  length : ℕ
  deriving DecidableEq

/-- `sizeof(MailHeader)`. -/
def mailHeaderSize : ℕ := 12

/-- `MaxMailSize`. -/
def maxMailSize : ℕ := maxPacketSize - mailHeaderSize

/-- The bytes of a `MailHeader`. -/
def MailHeader.bytes (h : MailHeader) : List UInt8 := headerBytes h.receiver h.sender h.length

/-- `*(MailHeader *)buffer`. -/
def MailHeader.ofBytes (buffer : List UInt8) : MailHeader :=
  ⟨intAt buffer 0, intAt buffer 4, unsignedAt buffer 8⟩

/-- The bytes of a `PacketHeader`. -/
def packetHeaderBytes (h : PacketHeader) : List UInt8 := headerBytes h.receiver h.sender h.length

/-- `*(PacketHeader *)buffer`. -/
def packetHeaderOfBytes (buffer : List UInt8) : PacketHeader :=
  ⟨intAt buffer 0, intAt buffer 4, unsignedAt buffer 8⟩

theorem MailHeader.ofBytes_bytes {h : MailHeader} (hto : IsInt h.receiver) (hfrom : IsInt h.sender)
    (hlen : h.length < 4294967296) (rest : List UInt8) : ofBytes (h.bytes ++ rest) = h := by
  unfold ofBytes bytes
  rw [intAt_zero_headerBytes rest hto, intAt_four_headerBytes rest hfrom,
    unsignedAt_headerBytes rest hlen]

theorem packetHeaderOfBytes_bytes {h : PacketHeader} (hto : IsInt h.receiver)
    (hfrom : IsInt h.sender) (hlen : h.length < 4294967296) (rest : List UInt8) :
    packetHeaderOfBytes (packetHeaderBytes h ++ rest) = h := by
  unfold packetHeaderOfBytes packetHeaderBytes
  rw [intAt_zero_headerBytes rest hto, intAt_four_headerBytes rest hfrom,
    unsignedAt_headerBytes rest hlen]

/-! ### The layers -/

/-- `bcopy(src, dst, n)`: what is behind the `n` bytes of `dst` stays. -/
def bcopy (src dst : List UInt8) (n : ℕ) : List UInt8 := src.take n ++ dst.drop n

/-- `Mail`, also for the arguments of `PostOfficeOutput::Send`. -/
structure Mail where
  pktHdr : PacketHeader
  mailHdr : MailHeader
  data : List UInt8
  deriving DecidableEq

/-- What `PostOfficeOutput::Send` on the machine `hostName` makes of its arguments. -/
def packet (hostName : Int) (m : Mail) : Packet where
  hdr := { m.pktHdr with sender := hostName, length := m.mailHdr.length + mailHeaderSize }
  data := m.mailHdr.bytes ++ m.data.take m.mailHdr.length

/-- `PostOfficeOutput::Send`, up to `sendLock->Acquire()`; `none` if an assertion fails. -/
def send (hostName : Int) (m : Mail) : Option Packet :=
  if m.mailHdr.length ≤ maxMailSize ∧ 0 ≤ m.mailHdr.receiver then some (packet hostName m) else none

/-- What `NetworkOutput::Send` gives to the socket, in a buffer that held `block`. -/
def wireBytes (p : Packet) (block : List UInt8) : List UInt8 :=
  bcopy (packetHeaderBytes p.hdr ++ p.data.take p.hdr.length) block
    (packetHeaderSize + p.hdr.length)

/-- What `NetworkInput::CallBack` finds in the bytes from the socket. -/
def readPacket (bytes : List UInt8) : Packet where
  hdr := packetHeaderOfBytes bytes
  data := (bytes.drop packetHeaderSize).take (packetHeaderOfBytes bytes).length

/-- What the postal worker finds in its buffer, and `Mail::Mail` copies. -/
def parseMail (pktHdr : PacketHeader) (buffer : List UInt8) : Mail where
  pktHdr := pktHdr
  mailHdr := .ofBytes buffer
  data := (buffer.drop mailHeaderSize).take (MailHeader.ofBytes buffer).length

/-- What `MailBox::Get` hands to the caller of `Receive`. -/
def Mail.get (m : Mail) : Mail := { m with data := m.data.take m.mailHdr.length }

/-- The message as the receiver should see it. -/
def posted (hostName : Int) (m : Mail) : Mail where
  pktHdr := (packet hostName m).hdr
  mailHdr := m.mailHdr
  data := m.data.take m.mailHdr.length

@[simp] theorem get_posted (hostName : Int) (m : Mail) :
    (posted hostName m).get = posted hostName m := by
  simp [Mail.get, posted, List.take_take]

/-- What the callers of `Send` have to keep to: the data has at most `MaxMailSize` bytes, and the
receiver has the box. -/
structure Mail.Lawful (numBoxes : Int → Int) (hostName : Int) (m : Mail) : Prop where
  hostName : IsInt hostName
  machine : IsInt m.pktHdr.receiver
  box : IsInt m.mailHdr.receiver
  replyTo : IsInt m.mailHdr.sender
  size : m.mailHdr.length ≤ maxMailSize
  bytes : m.mailHdr.length ≤ m.data.length
  exists_box : 0 ≤ m.mailHdr.receiver ∧ m.mailHdr.receiver < numBoxes m.pktHdr.receiver

instance (numBoxes : Int → Int) (hostName : Int) (m : Mail) :
    Decidable (m.Lawful numBoxes hostName) :=
  decidable_of_iff (IsInt hostName ∧ IsInt m.pktHdr.receiver ∧ IsInt m.mailHdr.receiver ∧
      IsInt m.mailHdr.sender ∧ m.mailHdr.length ≤ maxMailSize ∧ m.mailHdr.length ≤ m.data.length ∧
      0 ≤ m.mailHdr.receiver ∧ m.mailHdr.receiver < numBoxes m.pktHdr.receiver)
    ⟨fun ⟨h1, h2, h3, h4, h5, h6, h7⟩ => ⟨h1, h2, h3, h4, h5, h6, h7⟩,
      fun h => ⟨h.1, h.2, h.3, h.4, h.5, h.6, h.7⟩⟩

section Layers

variable {numBoxes : Int → Int} {hostName : Int} {m : Mail}

variable (h : m.Lawful numBoxes hostName)

include h

theorem send_eq_some : send hostName m = some (packet hostName m) :=
  if_pos ⟨h.size, h.exists_box.1⟩

theorem length_packet_data :
    (packet hostName m).data.length = (packet hostName m).hdr.length := by
  have hbytes := h.bytes
  simp [packet, MailHeader.bytes, mailHeaderSize, hbytes, Nat.add_comm]

theorem length_packet_le :
    (packet hostName m).hdr.length ≤ maxPacketSize := by
  have hsize : m.mailHdr.length ≤ 40 := h.size
  show m.mailHdr.length + 12 ≤ 52
  omega

/-- The device takes the packet. -/
theorem accepts_packet :
    (networkOutput hostName).accepts (packet hostName m) = true := by
  have hle := length_packet_le h
  have hpos : 0 < (packet hostName m).hdr.length := Nat.succ_pos _
  exact decide_eq_true ⟨hpos, hle, rfl⟩

/-- **The packet survives the wire.** -/
theorem readPacket_wireBytes (block : List UInt8) :
    readPacket (wireBytes (packet hostName m) block) = packet hostName m := by
  have hlen := length_packet_data h
  have hle : (packet hostName m).hdr.length ≤ 52 := length_packet_le h
  obtain ⟨rest, hwire⟩ : ∃ rest, wireBytes (packet hostName m) block =
      packetHeaderBytes (packet hostName m).hdr ++ ((packet hostName m).data ++ rest) := by
    refine ⟨block.drop (packetHeaderSize + (packet hostName m).hdr.length), ?_⟩
    unfold wireBytes bcopy
    rw [← hlen, List.take_length, ← List.append_assoc]
    congr 1
    exact List.take_of_length_le (by simp [packetHeaderBytes, packetHeaderSize])
  have hhdr : packetHeaderOfBytes (wireBytes (packet hostName m) block) =
    (packet hostName m).hdr := by
    rw [hwire]
    exact packetHeaderOfBytes_bytes (h := (packet hostName m).hdr) h.machine h.hostName (by omega) _
  unfold readPacket
  rw [hhdr, hwire, ← hlen]
  have hdrop : (packetHeaderBytes (packet hostName m).hdr ++
      ((packet hostName m).data ++ rest)).drop packetHeaderSize =
        (packet hostName m).data ++ rest :=
    List.drop_left' rfl
  rw [hdrop, List.take_left]

/-- **The message survives the packet**, whatever is behind it in the buffer. -/
theorem parseMail_packet (rest : List UInt8) :
    parseMail (packet hostName m).hdr ((packet hostName m).data ++ rest) = posted hostName m := by
  have hsize : m.mailHdr.length ≤ 40 := h.size
  have hdata : (packet hostName m).data ++ rest =
      m.mailHdr.bytes ++ (m.data.take m.mailHdr.length ++ rest) := List.append_assoc ..
  have hhdr : MailHeader.ofBytes ((packet hostName m).data ++ rest) = m.mailHdr := by
    rw [hdata]
    exact MailHeader.ofBytes_bytes h.box h.replyTo (by omega) _
  unfold parseMail posted
  rw [hhdr, hdata]
  have hdrop : (m.mailHdr.bytes ++ (m.data.take m.mailHdr.length ++ rest)).drop mailHeaderSize =
      m.data.take m.mailHdr.length ++ rest := List.drop_left' rfl
  rw [hdrop, List.take_left' (List.length_take_of_le h.bytes)]

end Layers

end Nachos.Network
