import Nachos.Machine.Interrupt
import Nachos.Machine.SynchDevice

namespace Nachos.Machine

open Base

/-!
# Machine — the latency of the disk

`Disk::TimeToSeek`, `ModuloDiff`, `ComputeLatency` and `UpdateLast` of `machine/disk.cc`, and the
requests that call them. Beside the disk there is what it stands for: a head that has been on a
track since it last moved (`headSector`, `arrival`), and sectors that pass under it one after the
other (`passing`).

* `DiskState.Inv` — the track buffer has been filled since the head came to its track, from a sector
  boundary on, and before any request that could use it;
* `timeToSeek_spec`, `moduloDiff_spec` — the parts of the computation, without wraparound;
* `disk_latency` — every latency is one that such a disk can have.
-/

/-! ### The model -/

/-- `SectorsPerTrack`. -/
def sectorsPerTrack : Int := 32

/-- `NumTracks`. -/
def numTracks : Int := 32

/-- `RotationTime`. -/
def rotationTime : Int := 500

/-- `SeekTime`. -/
def seekTime : Int := 500

/-- The fields of `Disk`. -/
structure Disk where
  active : Bool
  lastSector : Int
  bufferInit : Int
  deriving DecidableEq

namespace Disk

/-- `Disk::Disk`. -/
def new : Disk := ⟨false, 0, 0⟩

variable (d : Disk) (totalTicks : Int)

/-- `Disk::TimeToSeek`: the time of the seek, and the time to the next sector boundary. -/
def timeToSeek (newSector : Int) : Int × Int :=
  let newTrack := newSector.tdiv sectorsPerTrack
  let oldTrack := d.lastSector.tdiv sectorsPerTrack
  let seek := wrap32 ((newTrack - oldTrack).natAbs * seekTime)
  let over' := (wrap32 (totalTicks + seek)).tmod rotationTime
  (seek, if over' > 0 then rotationTime - over' else 0)

/-- `Disk::ModuloDiff`. -/
def moduloDiff (toSector fromSector : Int) : Int :=
  let toOffset := toSector.tmod sectorsPerTrack
  let fromOffset := fromSector.tmod sectorsPerTrack
  (toOffset - fromOffset + sectorsPerTrack).tmod sectorsPerTrack

/-- `timeAfter` in `Disk::ComputeLatency`. -/
def timeAfter (newSector : Int) : Int :=
  let (seek, rotation) := d.timeToSeek totalTicks newSector
  wrap32 (wrap32 (totalTicks + seek) + rotation)

/-- The condition of `Disk::ComputeLatency`: the sector is in the track buffer. -/
def inTrackBuffer (r : DiskRequest) : Bool :=
  !r.writing && (d.timeToSeek totalTicks r.sectorNumber).1 == 0 &&
    (wrap32 (d.timeAfter totalTicks r.sectorNumber - d.bufferInit)).tdiv rotationTime
      > moduloDiff r.sectorNumber (d.bufferInit.tdiv rotationTime)

/-- `Disk::ComputeLatency`. -/
def computeLatency (r : DiskRequest) : Int :=
  let (seek, rotation) := d.timeToSeek totalTicks r.sectorNumber
  let timeAfter := d.timeAfter totalTicks r.sectorNumber
  if d.inTrackBuffer totalTicks r then rotationTime
  else
    let rotation :=
      wrap32 (rotation + moduloDiff r.sectorNumber (timeAfter.tdiv rotationTime) * rotationTime)
    wrap32 (wrap32 (seek + rotation) + rotationTime)

/-- `Disk::UpdateLast`. -/
def updateLast (newSector : Int) : Disk :=
  let (seek, _) := d.timeToSeek totalTicks newSector
  { d with
    bufferInit := if seek ≠ 0 then d.timeAfter totalTicks newSector else d.bufferInit
    lastSector := newSector }

end Disk

/-- A request that has been made, at the given time. -/
structure MadeRequest where
  time : Int
  request : DiskRequest

/-- The disk in the simulation. -/
structure DiskState where
  totalTicks : Int
  disk : Disk
  /-- When the interrupt of the request in progress is to occur. -/
  due : Int
  /-- The requests that have been made, the last one first. -/
  made : List MadeRequest

/-- What can happen next. -/
inductive DiskAction where
  /-- `ReadRequest` or `WriteRequest`. -/
  | request (r : DiskRequest)
  /-- Simulated time goes on. -/
  | elapse (ticks : ℕ)
  /-- The interrupt. -/
  | callBack

namespace DiskState

/-- `Disk::ReadRequest` and `Disk::WriteRequest`. -/
def request (s : DiskState) (r : DiskRequest) : Outcome DiskState :=
  let ticks := s.disk.computeLatency s.totalTicks r
  -- `ASSERT(!active)`, and the one for the number of the sector
  if s.disk.active = false ∧ 0 ≤ r.sectorNumber ∧ r.sectorNumber < sectorsPerTrack * numTracks then
    -- `ASSERT(fromNow > 0)` in `Interrupt::Schedule`
    if ticks > 0 then
      .next { s with
        disk := { s.disk.updateLast s.totalTicks r.sectorNumber with active := true }
        due := wrap32 (s.totalTicks + ticks)
        made := ⟨s.totalTicks, r⟩ :: s.made }
    else .fault
  else .fault

/-- One action. -/
def next (s : DiskState) : DiskAction → Outcome DiskState
  | .request r => s.request r
  | .elapse ticks => .next { s with totalTicks := wrap32 (s.totalTicks + ticks) }
  | .callBack =>
    -- An interrupt occurs when it is time, or later.
    if s.disk.active = true ∧ s.due ≤ s.totalTicks then
      .next { s with disk := { s.disk with active := false } }
    else .disabled

/-- The longest time of a request. -/
def oneRequest : Int := (numTracks - 1) * seekTime + (sectorsPerTrack + 1) * rotationTime

/-- Simulated time stays below `2 ^ 31` minus one request. -/
def InTime (s : DiskState) : DiskAction → Prop
  | .elapse ticks => s.totalTicks + ticks + oneRequest ≤ maxInt
  | _ => True

instance (s : DiskState) (a : DiskAction) : Decidable (s.InTime a) := by
  cases a <;> unfold InTime <;> infer_instance

end DiskState

/-- Runs of a new disk. -/
def diskSystem : LTS DiskState DiskAction :=
  LTS.restrict
    ⟨fun s => ∃ t, 0 ≤ t ∧ t + DiskState.oneRequest ≤ maxInt ∧ s = ⟨t, .new, 0, []⟩, DiskState.next⟩
    DiskState.InTime

/-! ### The disk that is simulated -/

/-- The track of a sector. -/
def trackOf (sector : Int) : Int := sector / sectorsPerTrack

/-- The sector of its track that passes under the head at the given time. -/
def passing (time : Int) : Int := time / rotationTime % sectorsPerTrack

/-- The head is on the track of this sector. -/
def headSector : List MadeRequest → Int
  | [] => 0
  | m :: _ => m.request.sectorNumber

/-- When the head came to its track: the last request for another track has moved it, at one track
per `SeekTime`. -/
def arrival : List MadeRequest → Int
  | [] => 0
  | m :: made =>
    if trackOf m.request.sectorNumber = trackOf (headSector made) then arrival made
    else m.time + (trackOf m.request.sectorNumber - trackOf (headSector made)).natAbs * seekTime

/-- The sector passes under the head between the two times, from its beginning to its end. -/
def PassesBetween (sector t₀ t₁ : Int) : Prop :=
  ∃ start, t₀ ≤ start ∧ start + rotationTime ≤ t₁ ∧
    ∀ time, start ≤ time → time < start + rotationTime → passing time = sector % sectorsPerTrack

/-! ### The parts of the computation -/

namespace Disk

variable {d : Disk} {totalTicks sector : Int}

theorem moduloDiff_spec {toSector : Int} (fromSector : Int) (hto : 0 ≤ toSector)
    (hfrom : 0 ≤ fromSector) :
    0 ≤ moduloDiff toSector fromSector ∧ moduloDiff toSector fromSector < 32 ∧
      (fromSector + moduloDiff toSector fromSector) % 32 = toSector % 32 := by
  unfold moduloDiff sectorsPerTrack
  rw [Int.tmod_eq_emod_of_nonneg hto, Int.tmod_eq_emod_of_nonneg hfrom,
    Int.tmod_eq_emod_of_nonneg (by omega)]
  omega

/-- The sector passes under the head as many sectors after `from` as `ModuloDiff` says. -/
theorem passing_moduloDiff (base time : Int) (hs : 0 ≤ sector) (h0 : 0 ≤ base)
    (hbase : base % rotationTime = 0)
    (hlo : base + moduloDiff sector (base.tdiv rotationTime) * rotationTime ≤ time)
    (hhi : time < base + moduloDiff sector (base.tdiv rotationTime) * rotationTime + rotationTime) :
    passing time = sector % sectorsPerTrack := by
  unfold rotationTime at hbase hlo hhi
  rw [Int.tdiv_eq_ediv_of_nonneg h0] at hlo hhi
  obtain ⟨-, -, hmod⟩ := moduloDiff_spec (base / 500) hs (by omega)
  have hsector : time / 500 = base / 500 + moduloDiff sector (base / 500) := by omega
  unfold passing rotationTime sectorsPerTrack
  rw [hsector, hmod]

/-- The sector is on the disk. -/
def OnDisk (sector : Int) : Prop := 0 ≤ sector ∧ sector < sectorsPerTrack * numTracks

/-- **`TimeToSeek`**, as long as no `int` overflows. -/
theorem timeToSeek_spec (h0 : 0 ≤ totalTicks) (hmax : totalTicks + DiskState.oneRequest ≤ maxInt)
    (hlast : OnDisk d.lastSector) (hs : OnDisk sector) :
    ∃ seek rotation, d.timeToSeek totalTicks sector = (seek, rotation) ∧
      seek = (trackOf sector - trackOf d.lastSector).natAbs * seekTime ∧
      0 ≤ seek ∧ seek ≤ (numTracks - 1) * seekTime ∧ 0 ≤ rotation ∧ rotation < rotationTime ∧
      (totalTicks + seek + rotation) % rotationTime = 0 ∧
      d.timeAfter totalTicks sector = totalTicks + seek + rotation := by
  have htracks : 0 ≤ trackOf sector ∧ trackOf sector < 32 ∧ 0 ≤ trackOf d.lastSector ∧
      trackOf d.lastSector < 32 := by
    unfold OnDisk numTracks at hlast hs
    unfold trackOf
    unfold sectorsPerTrack at hlast hs ⊢
    omega
  unfold DiskState.oneRequest maxInt numTracks sectorsPerTrack rotationTime seekTime at hmax
  obtain ⟨seek, hseek⟩ : ∃ seek : Int,
    seek = (trackOf sector - trackOf d.lastSector).natAbs * 500 := ⟨_, rfl⟩
  have hbound : 0 ≤ seek ∧ seek ≤ 15500 := by omega
  obtain ⟨rotation, hrotation⟩ : ∃ rotation : Int, rotation =
      if (totalTicks + seek) % 500 > 0 then 500 - (totalTicks + seek) % 500 else 0 := ⟨_, rfl⟩
  have hround : 0 ≤ rotation ∧ rotation < 500 ∧ (totalTicks + seek + rotation) % 500 = 0 := by
    split at hrotation <;> omega
  have htime : d.timeToSeek totalTicks sector = (seek, rotation) := by
    unfold timeToSeek
    simp only [Int.tdiv_eq_ediv_of_nonneg hlast.1, Int.tdiv_eq_ediv_of_nonneg hs.1]
    show (wrap32 ((trackOf sector - trackOf d.lastSector).natAbs * 500),
      if (wrap32 (totalTicks +
        wrap32 ((trackOf sector - trackOf d.lastSector).natAbs * 500))).tmod 500 > 0
      then 500 - (wrap32 (totalTicks +
        wrap32 ((trackOf sector - trackOf d.lastSector).natAbs * 500))).tmod 500 else 0) = _
    rw [← hseek, wrap32_of_nonneg (x := seek) (by omega) (by unfold maxInt; omega),
      wrap32_of_nonneg (by omega) (by unfold maxInt; omega),
      Int.tmod_eq_emod_of_nonneg (by omega), ← hrotation]
  refine ⟨seek, rotation, htime, hseek, hbound.1, hbound.2, hround.1, hround.2.1, hround.2.2, ?_⟩
  unfold timeAfter
  rw [htime]
  show wrap32 (wrap32 (totalTicks + seek) + rotation) = _
  rw [wrap32_of_nonneg (x := totalTicks + seek) (by omega) (by unfold maxInt; omega),
    wrap32_of_nonneg (by omega) (by unfold maxInt; omega)]

theorem computeLatency_buffered {r : DiskRequest} (h : d.inTrackBuffer totalTicks r = true) :
    d.computeLatency totalTicks r = rotationTime := by
  unfold computeLatency
  simp only [if_pos h]

/-- A request without it: the seek, the rotation and the transfer. -/
theorem computeLatency_direct {r : DiskRequest} (h0 : 0 ≤ totalTicks)
    (hmax : totalTicks + DiskState.oneRequest ≤ maxInt) (hlast : OnDisk d.lastSector)
    (hs : OnDisk r.sectorNumber) (h : d.inTrackBuffer totalTicks r = false) :
    d.computeLatency totalTicks r = d.timeAfter totalTicks r.sectorNumber - totalTicks +
      moduloDiff r.sectorNumber ((d.timeAfter totalTicks r.sectorNumber).tdiv rotationTime) *
        rotationTime + rotationTime := by
  obtain ⟨seek, rotation, htime, -, hseek, hseek', hrot, hrot', -, hafter⟩ :=
    timeToSeek_spec h0 hmax hlast hs
  unfold numTracks seekTime at hseek'
  unfold rotationTime at hrot'
  unfold computeLatency
  rw [htime]
  simp only [h, Bool.false_eq_true, if_false]
  rw [hafter]
  obtain ⟨hlo, hhi, -⟩ := moduloDiff_spec ((totalTicks + seek + rotation).tdiv rotationTime) hs.1
    (Int.tdiv_nonneg (by omega) (by decide))
  unfold rotationTime at hlo hhi ⊢
  rw [wrap32_of_nonneg (x := rotation + _) (by omega) (by unfold maxInt; omega),
    wrap32_of_nonneg (x := seek + _) (by omega) (by unfold maxInt; omega),
    wrap32_of_nonneg (by omega) (by unfold maxInt; omega)]
  omega

/-- The sector is in the track buffer. -/
theorem inTrackBuffer_eq_true {r : DiskRequest} : d.inTrackBuffer totalTicks r = true ↔
    r.writing = false ∧ (d.timeToSeek totalTicks r.sectorNumber).1 = 0 ∧
      (wrap32 (d.timeAfter totalTicks r.sectorNumber - d.bufferInit)).tdiv rotationTime
        > moduloDiff r.sectorNumber (d.bufferInit.tdiv rotationTime) := by
  unfold inTrackBuffer
  rw [Bool.and_eq_true, Bool.and_eq_true, Bool.not_eq_true', beq_iff_eq, decide_eq_true_eq,
    and_assoc]

end Disk

/-! ### Runs -/

namespace DiskState

/-- What holds in every run. -/
structure Inv (s : DiskState) : Prop where
  nonneg : 0 ≤ s.totalTicks
  inTime : s.totalTicks + oneRequest ≤ maxInt
  lastSector : s.disk.lastSector = headSector s.made
  onDisk : Disk.OnDisk s.disk.lastSector
  /-- The track buffer starts at a sector boundary, when the head is there. -/
  boundary : s.disk.bufferInit % rotationTime = 0
  arrival : 0 ≤ Machine.arrival s.made ∧ Machine.arrival s.made ≤ s.disk.bufferInit
  /-- The head has moved when the request is complete. -/
  busy : s.disk.active = true → s.disk.bufferInit ≤ s.due
  ready : s.disk.active = false → s.disk.bufferInit ≤ s.totalTicks

/-- A latency that the disk can have: a sector is read from the track buffer after it has passed
under the head, and any other request ends with the pass of its sector. -/
structure Consistent (s : DiskState) (r : DiskRequest) (t : Int) : Prop where
  least : rotationTime ≤ t
  most : t ≤ (numTracks - 1) * seekTime + (sectorsPerTrack + 1) * rotationTime
  direct : s.disk.inTrackBuffer s.totalTicks r = false →
    rotationTime ∣ s.totalTicks + t ∧
      Machine.arrival (⟨s.totalTicks, r⟩ :: s.made) ≤ s.totalTicks + t - rotationTime ∧
      ∀ time, s.totalTicks + t - rotationTime ≤ time → time < s.totalTicks + t →
        passing time = r.sectorNumber % sectorsPerTrack
  buffered : s.disk.inTrackBuffer s.totalTicks r = true →
    r.writing = false ∧ trackOf r.sectorNumber = trackOf (headSector s.made) ∧
      Machine.arrival s.made ≤ s.disk.bufferInit ∧
      PassesBetween r.sectorNumber s.disk.bufferInit (s.totalTicks + t)

variable {s : DiskState} {r : DiskRequest}

theorem Inv.new {t : Int} (h0 : 0 ≤ t) (hmax : t + oneRequest ≤ maxInt) :
    Inv ⟨t, .new, 0, []⟩ where
  nonneg := h0
  inTime := hmax
  lastSector := rfl
  onDisk := ⟨le_rfl, show (0 : Int) < sectorsPerTrack * numTracks by decide⟩
  boundary := rfl
  arrival := ⟨le_rfl, le_rfl⟩
  busy h := by cases h
  ready _ := h0

/-- When the head is on the track of a request. -/
theorem arrival_cons {m : MadeRequest} {made : List MadeRequest} {seek : Int}
    (hseek : seek =
      (trackOf m.request.sectorNumber - trackOf (headSector made)).natAbs * seekTime) :
    Machine.arrival (m :: made) = if seek = 0 then Machine.arrival made else m.time + seek := by
  rw [Machine.arrival, ← hseek]
  unfold seekTime at hseek
  by_cases htrack : trackOf m.request.sectorNumber = trackOf (headSector made)
  · rw [if_pos htrack, if_pos (by omega)]
  · rw [if_neg htrack, if_neg (by omega)]

/-- A request without the track buffer. -/
theorem Inv.direct (h : s.Inv) (hactive : s.disk.active = false) (hs : Disk.OnDisk r.sectorNumber)
    (hbuf : s.disk.inTrackBuffer s.totalTicks r = false) :
    s.Consistent r (s.disk.computeLatency s.totalTicks r) := by
  obtain ⟨seek, rotation, -, hseek, hseek0, hseek', hrot, hrot', hround, hafter⟩ :=
    Disk.timeToSeek_spec h.nonneg h.inTime h.onDisk hs
  have h0 := h.nonneg
  have hready := h.ready hactive
  have harrival := h.arrival
  have hlatency := Disk.computeLatency_direct h.nonneg h.inTime h.onDisk hs hbuf
  rw [hafter] at hlatency
  rw [h.lastSector] at hseek
  obtain ⟨hlo, hhi, -⟩ := Disk.moduloDiff_spec
    ((s.totalTicks + seek + rotation).tdiv rotationTime) hs.1
    (Int.tdiv_nonneg (by omega) (by decide))
  have hpass := fun time => Disk.passing_moduloDiff (s.totalTicks + seek + rotation) time
    hs.1 (by omega) hround
  rw [hlatency]
  unfold numTracks seekTime at hseek'
  unfold rotationTime at hrot' hround hlo hhi hpass
  refine ⟨?_, ?_, fun _ => ⟨?_, ?_, fun time htime htime' => ?_⟩, fun hbuf' => ?_⟩
  · unfold rotationTime
    omega
  · unfold numTracks seekTime sectorsPerTrack rotationTime
    omega
  · unfold rotationTime
    omega
  · rw [arrival_cons (m := ⟨s.totalTicks, r⟩) hseek]
    unfold rotationTime
    split
    · omega
    · show s.totalTicks + seek ≤ _
      omega
  · unfold rotationTime at htime htime'
    exact hpass time (by omega) (by omega)
  · rw [hbuf] at hbuf'
    cases hbuf'

/-- A request with the track buffer. -/
theorem Inv.buffered (h : s.Inv) (hactive : s.disk.active = false) (hs : Disk.OnDisk r.sectorNumber)
    (hbuf : s.disk.inTrackBuffer s.totalTicks r = true) :
    s.Consistent r (s.disk.computeLatency s.totalTicks r) := by
  obtain ⟨seek, rotation, htime, hseek, -, -, hrot, hrot', hround, hafter⟩ :=
    Disk.timeToSeek_spec h.nonneg h.inTime h.onDisk hs
  obtain ⟨hwriting, hzero, hpassed⟩ := Disk.inTrackBuffer_eq_true.mp hbuf
  have hready := h.ready hactive
  have harrival := h.arrival
  have hmax := h.inTime
  have hboundary := h.boundary
  rw [htime] at hzero
  subst hzero
  rw [hafter] at hpassed
  rw [h.lastSector] at hseek
  rw [Disk.computeLatency_buffered hbuf]
  obtain ⟨hlo, hhi, -⟩ := Disk.moduloDiff_spec (s.disk.bufferInit.tdiv rotationTime) hs.1
    (Int.tdiv_nonneg (by omega) (by decide))
  have hpass := fun time => Disk.passing_moduloDiff s.disk.bufferInit time
    hs.1 (by omega) hboundary
  unfold oneRequest numTracks seekTime sectorsPerTrack rotationTime maxInt at hmax
  unfold rotationTime at hrot' hround hpassed hboundary hlo hhi hpass
  -- The pass of the sector has begun at the boundary of the buffer, and is over before the next
  -- one.
  rw [wrap32_of_nonneg (by omega) (by unfold maxInt; omega),
    Int.tdiv_eq_ediv_of_nonneg (by omega)] at hpassed
  have hover : s.disk.bufferInit +
      Disk.moduloDiff r.sectorNumber (s.disk.bufferInit.tdiv 500) * 500 + 500
      ≤ s.totalTicks + 0 + rotation := by
    omega
  refine ⟨le_rfl, by decide, fun hbuf' => ?_, fun _ => ⟨hwriting, ?_, harrival.2, _, ?_, ?_, hpass⟩⟩
  · rw [hbuf] at hbuf'
    cases hbuf'
  · unfold seekTime at hseek
    omega
  · omega
  · unfold rotationTime
    omega

theorem Inv.consistent (h : s.Inv) (hactive : s.disk.active = false)
    (hs : Disk.OnDisk r.sectorNumber) : s.Consistent r (s.disk.computeLatency s.totalTicks r) := by
  cases hbuf : s.disk.inTrackBuffer s.totalTicks r with
  | false => exact h.direct hactive hs hbuf
  | true => exact h.buffered hactive hs hbuf

/-- A request that passes the assertions. -/
theorem Inv.request_eq (h : s.Inv) (hactive : s.disk.active = false)
    (hs : Disk.OnDisk r.sectorNumber) :
    s.request r = .next { s with
      disk := { s.disk.updateLast s.totalTicks r.sectorNumber with active := true }
      due := s.totalTicks + s.disk.computeLatency s.totalTicks r
      made := ⟨s.totalTicks, r⟩ :: s.made } := by
  have hcons := h.consistent hactive hs
  have h0 := h.nonneg
  have hmax := h.inTime
  have hleast : 500 ≤ s.disk.computeLatency s.totalTicks r := hcons.least
  have hmost : s.disk.computeLatency s.totalTicks r ≤ oneRequest := hcons.most
  unfold request
  rw [if_pos ⟨hactive, hs⟩, if_pos (by omega), wrap32_of_nonneg (by omega) (by omega)]

theorem Inv.request (h : s.Inv) (hactive : s.disk.active = false)
    (hs : Disk.OnDisk r.sectorNumber) : (s.request r).Meets Inv := by
  rw [h.request_eq hactive hs]
  obtain ⟨seek, rotation, htime, hseek, hseek0, -, hrot, hrot', hround, hafter⟩ :=
    Disk.timeToSeek_spec h.nonneg h.inTime h.onDisk hs
  have hcons := h.consistent hactive hs
  have h0 := h.nonneg
  have hleast : 500 ≤ s.disk.computeLatency s.totalTicks r := hcons.least
  have hready := h.ready hactive
  have harrival := h.arrival
  rw [h.lastSector] at hseek
  have hcame := arrival_cons (m := ⟨s.totalTicks, r⟩) hseek
  have hupdate : s.disk.updateLast s.totalTicks r.sectorNumber = { s.disk with
      bufferInit := if seek ≠ 0 then s.totalTicks + seek + rotation else s.disk.bufferInit
      lastSector := r.sectorNumber } := by
    unfold Disk.updateLast
    rw [htime, hafter]
  rw [hupdate]
  unfold rotationTime at hrot'
  by_cases hzero : seek = 0
  · rw [if_pos hzero] at hcame
    rw [if_neg (not_not.mpr hzero)]
    refine ⟨h0, h.inTime, rfl, hs, h.boundary, ?_, fun _ => ?_, fun hidle => ?_⟩
    · rw [hcame]
      exact harrival
    · show s.disk.bufferInit ≤ s.totalTicks + _
      omega
    · cases hidle
  · rw [if_neg hzero] at hcame
    rw [if_pos hzero]
    have hbuf : s.disk.inTrackBuffer s.totalTicks r = false := by
      rw [Bool.eq_false_iff]
      intro hbuf
      have htrack := (hcons.buffered hbuf).2.1
      rw [htrack, sub_self] at hseek
      exact hzero hseek
    have hthere := (hcons.direct hbuf).2.1
    rw [hcame] at hthere
    unfold rotationTime at hthere
    refine ⟨h0, h.inTime, rfl, hs, hround, ?_, fun _ => ?_, fun hidle => ?_⟩
    · rw [hcame]
      show 0 ≤ s.totalTicks + seek ∧ s.totalTicks + seek ≤ s.totalTicks + seek + rotation
      omega
    · show s.totalTicks + seek + rotation ≤ s.totalTicks + _
      dsimp only at hthere
      omega
    · cases hidle

theorem Inv.next (h : s.Inv) {a : DiskAction} {s' : DiskState} (ha : s.InTime a)
    (hs : s.next a = .next s') : s'.Inv := by
  cases a with
  | request r =>
    -- A request that goes on has passed the assertions.
    have hpass : s.disk.active = false ∧ Disk.OnDisk r.sectorNumber := by
      by_contra hfail
      have hfault : s.request r = .fault := if_neg hfail
      rw [DiskState.next, hfault] at hs
      cases hs
    exact (h.request hpass.1 hpass.2).next hs
  | elapse ticks =>
    have hmax : s.totalTicks + ticks + oneRequest ≤ maxInt := ha
    have h0 := h.nonneg
    have hone : 0 ≤ oneRequest := by decide
    cases hs
    rw [wrap32_of_nonneg (by omega) (by omega)]
    refine ⟨?_, hmax, h.lastSector, h.onDisk, h.boundary, h.arrival, h.busy, fun hidle => ?_⟩
    · show 0 ≤ s.totalTicks + ticks
      omega
    · have hready := h.ready hidle
      show s.disk.bufferInit ≤ s.totalTicks + ticks
      omega
  | callBack =>
    obtain ⟨⟨hbusy, hdue⟩, hs⟩ := Outcome.guard_eq_next.mp hs
    cases hs
    refine ⟨h.nonneg, h.inTime, h.lastSector, h.onDisk, h.boundary, h.arrival, fun hactive => ?_,
      fun _ => ?_⟩
    · cases hactive
    · exact (h.busy hbusy).trans hdue

end DiskState

/-- **The latency of the disk.** In every run, the latency of a request is one that a disk can have
whose head moves and whose sectors pass as `stats.h` says, and no assertion of `Schedule` fails. -/
theorem disk_latency {s : DiskState} (h : diskSystem.Reachable s) {r : DiskRequest}
    (hactive : s.disk.active = false) (hs : Disk.OnDisk r.sectorNumber) :
    s.Consistent r (s.disk.computeLatency s.totalTicks r) ∧ s.request r ≠ .fault ∧
      ∀ (C : Type) [DecidableEq C] (sim : IntState C) (c : C), (interruptSystem C).Reachable sim →
        sim.totalTicks = s.totalTicks →
        sim.schedule ⟨c, s.disk.computeLatency s.totalTicks r⟩ ≠ none := by
  have hinv : s.Inv := by
    apply h.invariant (I := DiskState.Inv)
    · rintro s ⟨t, h0, hmax, rfl⟩
      exact .new h0 hmax
    · intro s a s' hi hs
      obtain ⟨ha, hs⟩ := LTS.restrict_next hs
      exact hi.next ha hs
  have hcons := hinv.consistent hactive hs
  refine ⟨hcons, (hinv.request hactive hs).ne_fault, fun C _ sim c hreach hticks => ?_⟩
  have hsim := IntState.inv_of_reachable hreach
  have hgood : IntState.GoodRequest sim.totalTicks ⟨c, s.disk.computeLatency s.totalTicks r⟩ := by
    rw [hticks]
    exact ⟨lt_of_lt_of_le (by decide) hcons.least,
      (Int.add_le_add_left hcons.most _).trans hinv.inTime⟩
  obtain ⟨sim', hsim', -⟩ := hsim.queue.schedule hgood hsim.clock.nonneg
  rw [hsim']
  exact Option.some_ne_none _

/-- After a seek: a sector that has passed is read from the track buffer, but not written there. -/
theorem disk_latency_track : ∃ s, diskSystem.Reachable s ∧
    s.disk.inTrackBuffer s.totalTicks ⟨false, 41⟩ = true ∧
    s.Consistent ⟨false, 41⟩ 500 ∧ s.Consistent ⟨true, 41⟩ 15000 := by
  obtain ⟨s, hs, hticks, hdisk⟩ :=
    diskSystem.reaches (s := ⟨0, .new, 0, []⟩) ⟨0, le_rfl, by decide, rfl⟩
    [.request ⟨false, 40⟩, .elapse 6000, .callBack]
    (fun s => s.totalTicks = 6000 ∧ s.disk = ⟨false, 40, 500⟩) (by decide)
  have hactive : s.disk.active = false := by rw [hdisk]
  have hread := (disk_latency hs (r := ⟨false, 41⟩) hactive ⟨by decide, by decide⟩).1
  have hwrite := (disk_latency hs (r := ⟨true, 41⟩) hactive ⟨by decide, by decide⟩).1
  refine ⟨s, hs, ?_, ?_, ?_⟩
  · rw [hticks, hdisk]
    decide
  · rwa [hticks, hdisk] at hread
  · rwa [hticks, hdisk] at hwrite

end Nachos.Machine
