import Nachos.FileSys.OpenNames
import Nachos.UserProg.ReadWrite

namespace Nachos.UserProg

open Base FileSys.Stub Machine UserProg.Exception Function

/-!
# UserProg — the names of `Create`, `Open` and `Remove`

The three system calls copy a name from user memory before they use it, `Create` and `Remove` up to
`MAXLENGTH` characters of it and `Open` up to 32.

* `requests` — what a system call asks the rest of the kernel to do;
* `requests_name`, `requests_open` — the names in these requests;
* `HostDir` — the open files with the directory of the host, in which a file is created, opened and
  removed;
* `file_names_agree_iff` — the three names are one, and a file that is created can be opened and is
  kept while it is open, exactly if the name has at most 32 characters.
-/

/-! ### The requests of a system call -/

section Requests

variable {K : Type}

/-- The kernel with a record of what the system calls ask it for. -/
def Exception.Services.logged (S : Services K) : Services (K × List Service) where
  serve s r := match S.serve ⟨s.kernel.1, s.machine⟩ r with
    | .returned result buffer s' =>
      .returned result buffer ⟨(s'.kernel, s.kernel.2 ++ [r]), s'.machine⟩
    | .stopped e s' => .stopped e ⟨(s'.kernel, s.kernel.2), s'.machine⟩
  halts s := by
    rw [S.halts]
  restores h := by
    split at h
    · rename_i hret
      cases h
      exact S.restores hret
    · cases h
  maxAlloc := S.maxAlloc
  buffers := S.buffers
  addresses := S.addresses

/-- What the system call of the state asks the kernel `S` for, if it returns. -/
def requests (S : Services K) (s : CallState K) : Option (List Service) :=
  match exceptionHandler S.logged .syscallException ⟨(s.kernel, []), s.machine⟩ with
  | .ok _ s' => some s'.kernel.2
  | .error _ _ => none

variable {S : Services K} {s s' : CallState (K × List Service)}

theorem service_logged {r : Service} {a : BitVec 32 × List UInt8}
    (h : service S.logged r s = .ok a s') : s'.kernel.2 = s.kernel.2 ++ [r] := by
  unfold service Services.logged at h
  simp only at h
  split at h
  · rename_i hserve
    split at hserve
    · cases hserve
      cases h
      rfl
    · cases hserve
  · cases h

/-- A call of the kernel whose result goes to register 2 in some form. -/
theorem reply_logged {r : Service} (value : BitVec 32 × List UInt8 → BitVec 32)
    (h : (do let a ← service S.logged r; writeRegister 2 (value a) : Sys (K × List Service) Unit) s
      = .ok () s') : s'.kernel.2 = s.kernel.2 ++ [r] := by
  obtain ⟨a, s₁, hserve, hwrite⟩ := bind_eq_ok h
  rw [writeRegister_eq (by decide)] at hwrite
  cases hwrite
  show s₁.kernel.2 = _
  exact service_logged hserve

theorem dispatch_of_requests {t : CallState K} {rs : List Service} (h : requests S t = some rs) :
    ∃ s', dispatch S.logged (scOf (t.at 2)) ⟨(t.kernel, []), t.machine⟩ = .ok () s' ∧
      s'.kernel.2 = rs := by
  unfold requests at h
  split at h
  · rename_i s' hs'
    rw [exceptionHandler_syscall] at hs'
    exact ⟨s', hs', Option.some.inj h⟩
  · cases h

/-- The string is in user memory, with its NUL. -/
structure HoldsString (bytes : ℕ → Option UInt8) (str : CStr) : Prop where
  bytes_eq : ∀ i < str.1.length, bytes i = str.1[i]?
  ends : bytes str.1.length = some 0

theorem HoldsString.copied {bytes : ℕ → Option UInt8} {str : CStr} (h : HoldsString bytes str)
    {n : ℕ} {copy : List UInt8} (hcopy : ReadsString bytes n copy) : copy = str.1.take n := by
  -- The copy does not go on behind the NUL of the string.
  have hle : copy.length ≤ str.1.length := by
    by_contra hgt
    have hzero := hcopy.bytes_eq str.1.length (by omega)
    rw [h.ends] at hzero
    exact hcopy.ne_zero (List.mem_of_getElem? hzero.symm)
  -- Nor does it stop in front of it.
  have hlen : copy.length = min n str.1.length := by
    rcases hcopy.stops with heq | ⟨hlt, hstop⟩
    · omega
    · have hnot : ¬copy.length < str.1.length := by
        intro hin
        rw [h.bytes_eq _ hin] at hstop
        exact str.2 (List.mem_of_getElem? hstop)
      omega
  apply List.ext_getElem?
  intro i
  by_cases hi : i < copy.length
  · rw [← hcopy.bytes_eq i hi, h.bytes_eq i (by omega), List.getElem?_take_of_lt (by omega)]
  · rw [List.getElem?_eq_none (by omega), List.getElem?_eq_none (by rw [List.length_take]; omega)]

/-- A call that copies a name, at most `limit` characters of it, and asks the kernel for one
thing. -/
theorem log_of_name {l : PageMap} (hl : l.Installed s.machine) {virtAddr : BitVec 32} {str : CStr}
    (hstr : HoldsString (l.bytesFrom s.machine virtAddr.toNat) str)
    {reply : Service → Sys (K × List Service) Unit} {f : List UInt8 → Service} {limit : Int}
    (hreply : ∀ r s s', reply r s = .ok () s' → s'.kernel.2 = s.kernel.2 ++ [r])
    (h : (do
      let name ← user2System S.logged virtAddr limit
      reply (f name)
      increasePC : Sys (K × List Service) Unit) s = .ok () s') :
    s'.kernel.2 = s.kernel.2 ++ [f (str.1.take limit.toNat)] := by
  obtain ⟨copy, s₁, huser, h⟩ := bind_eq_ok h
  obtain ⟨_, s₂, hr, hpc⟩ := bind_eq_ok h
  obtain ⟨hread, hs₁⟩ := user2System_copied hl huser
  obtain ⟨hkernel, -, -⟩ := increasePC_spec (l := l) hpc
  rw [hkernel, hreply _ _ _ hr, hs₁.kernel, hstr.copied hread]

/-- The state makes the system call `c` with the string in register 4. -/
def Asks (c : Sc) (str : CStr) (s : CallState K) : Prop :=
  scOf (s.at 2) = some c ∧ ∃ l : PageMap, l.Installed s.machine ∧
    HoldsString (l.bytesFrom s.machine (s.at 4).toNat) str

variable {t : CallState K} {str : CStr} {rs : List Service}

theorem requests_name {c : Sc} {f : List UInt8 → Service} (hlen : str.1.length ≤ 255)
    (hc : dispatch S.logged (some c) = scName S.logged (serviceStatus S.logged) f)
    (hasks : Asks c str t) (hreq : requests S t = some rs) : rs = [f str.1] := by
  obtain ⟨hcode, l, hl, hstr⟩ := hasks
  obtain ⟨s', hs', rfl⟩ := dispatch_of_requests hreq
  rw [hcode, hc, scName, bind_ok (readRegister_eq (by decide) _)] at hs'
  have hlog := log_of_name hl hstr
    (fun r s s' => reply_logged fun a => if a.1 = -1 then -1 else 0) hs'
  have htake : str.1.take maxLength.toNat = str.1 := List.take_of_length_le hlen
  rw [hlog, htake]
  rfl

theorem requests_open (hasks : Asks .openFile str t) (hreq : requests S t = some rs) :
    rs = [.sysOpen (str.1.take 32) (t.at 5)] := by
  obtain ⟨hcode, l, hl, hstr⟩ := hasks
  obtain ⟨s', hs', rfl⟩ := dispatch_of_requests hreq
  rw [hcode, dispatch, scOpen, bind_ok (readRegister_eq (by decide) _),
    bind_ok (readRegister_eq (by decide) _)] at hs'
  split at hs'
  · -- Another type ends in the assertion.
    obtain ⟨_, s₁, -, hs'⟩ := bind_eq_ok hs'
    obtain ⟨_, s₂, -, hs'⟩ := bind_eq_ok hs'
    cases hs'
  · exact log_of_name hl hstr (fun r s s' => reply_logged Prod.fst) hs'

end Requests

/-! ### The directory of the host -/

/-- The open files, and whether the host has a file with a name. -/
structure HostDir where
  files : NamedFiles
  holds : CStr → Bool

namespace HostDir

/-- `SysCreate`; the host makes the file and opens it as `fd`. -/
def sysCreate (d : HostDir) (name : CStr) (fd : ℕ) : Except Fault (Int × HostDir) := do
  let (result, fileSystem) ← d.files.fileSystem.call (.create (asString name) (some fd))
  return (result, ⟨{ d.files with fileSystem := fileSystem },
    if result = 1 then update d.holds name true else d.holds⟩)

/-- `SysOpen`; the host opens a file that it has as `fd`. -/
def sysOpen (d : HostDir) (heap : Heap) (name : CStr) (readOnly : Bool) (fd : ℕ) :
    Except Fault (Int × HostDir) := do
  let (id, files) ← d.files.sysOpen heap name readOnly (if d.holds name then some fd else none)
  return (id, { d with files := files })

/-- `SysRemove`; the host removes a file that it has. -/
def sysRemove (d : HostDir) (heap : Heap) (name : CStr) : Except Fault (Int × HostDir) := do
  let (result, files) ← d.files.sysRemove heap name (d.holds name)
  return (result, ⟨files, if result = 1 then update d.holds name false else d.holds⟩)

variable {d d₁ : HostDir} {heap : Heap} {name : CStr} {i : Fin maxFile} {f : OpenFile}

/-- A file that has just been created is there. -/
theorem holds_sysCreate {fd : ℕ} (h : d.sysCreate name fd = .ok (1, d₁)) :
    d₁.holds name = true := by
  have hpost : Post (fun r : Int × HostDir => r.1 = 1 → r.2.holds name = true)
    (d.sysCreate name fd) := by
    refine (post_true _).bind fun r _ => post_ok.mpr fun hr => ?_
    show (if r.1 = 1 then update d.holds name true else d.holds) name = true
    rw [if_pos hr, update_self]
  exact hpost _ h rfl

/-- A file that is there is opened, if it is open already or if there is an entry for it. -/
theorem sysOpen_of_holds (hheld : d.holds name = true) (hname : name.1 ≠ []) (readOnly : Bool)
    {fd : ℕ} (hfd : fd ∉ d.files.fileSystem.hostOpen)
    (hfree : ∃ i : Fin maxFile, 2 ≤ (i : ℕ) ∧ d.files.fileSystem.table i = none) :
    ∃ id d₁, d.sysOpen heap name readOnly fd = .ok (id, d₁) ∧ id ≠ -1 := by
  obtain ⟨id, fileSystem, hopen, hid⟩ :=
    FileSystem.sysOpen_eq_ok ((isEmpty_asString name).not.mpr hname)
    (show (if readOnly then 1 else 0) = (0 : Int) ∨ (if readOnly then 1 else 0) = (1 : Int) by
      cases readOnly <;> simp) (d.files.same heap name) hfd hfree
  refine ⟨id, { d with files := d.files.named id name fileSystem }, ?_, hid⟩
  rw [sysOpen, if_pos hheld, NamedFiles.sysOpen, FileSystem.call, hopen]
  rfl

/-- The file that `Open` returns is open under the name. -/
theorem named_of_sysOpen (ht : d.files.Terminated heap) {readOnly : Bool} {fd : ℕ} {id : Int}
    (h : d.sysOpen heap name readOnly fd = .ok (id, d₁)) (hid : id ≠ -1) :
    ∃ (i : Fin maxFile) (f : OpenFile), (i : Int) = id ∧ d₁.files.fileSystem.table i = some f ∧
      d₁.files.fileName i = name := by
  have hpost : Post (fun r : Int × HostDir => d.files.OpenedName heap name (r.1, r.2.files))
      (d.sysOpen heap name readOnly fd) :=
    (d.files.openedName_sysOpen heap name readOnly _).bind fun r hr => post_ok.mpr hr
  exact (hpost _ h).named ht hid

/-- A file that is open under a name is not removed. -/
theorem sysRemove_of_open (ht : d.files.Terminated heap) (hname : name.1 ≠ [])
    (hi : d.files.fileSystem.table i = some f) (hopen : d.files.fileName i = name) :
    d.sysRemove heap name = .ok (-1, d) := by
  rw [sysRemove, ht.sysRemove_eq hname hi hopen]
  rfl

end HostDir

/-- What one name is good for. A file that has been created under it can be opened under it, if
there is an entry for it; and the file that is opened is in an entry with the name, and as long as
it is there, the name is not removed. (This leaves out that the lookups may be misled by the memory
behind the stored names.) -/
structure Usable (created opened removed : CStr) : Prop where
  opens : ∀ d d₁ fd fd' heap readOnly, HostDir.sysCreate d created fd = .ok (1, d₁) →
    fd' ∉ d₁.files.fileSystem.hostOpen →
    (∃ i : Fin maxFile, 2 ≤ (i : ℕ) ∧ d₁.files.fileSystem.table i = none) →
      ∃ id d₂, d₁.sysOpen heap opened readOnly fd' = .ok (id, d₂) ∧ id ≠ -1
  kept : ∀ d d₁ fd heap readOnly id, HostDir.sysOpen d heap opened readOnly fd = .ok (id, d₁) →
    id ≠ -1 → d.files.Terminated heap → ∃ (i : Fin maxFile) (f : OpenFile), (i : Int) = id ∧
      d₁.files.fileSystem.table i = some f ∧ d₁.files.fileName i = opened ∧
      ∀ d₂ heap' g, d₂.files.fileSystem.table i = some g →
        d₂.files.fileName i = opened → d₂.files.Terminated heap' →
          HostDir.sysRemove d₂ heap' removed = .ok (-1, d₂)

theorem usable_self {name : CStr} (hname : name.1 ≠ []) : Usable name name name where
  opens d d₁ fd fd' heap readOnly hcreate hfd hfree :=
    HostDir.sysOpen_of_holds (HostDir.holds_sysCreate hcreate) hname readOnly hfd hfree
  kept d d₁ fd heap readOnly id hopen hid ht := by
    obtain ⟨i, f, hi, hentry, hfile⟩ := HostDir.named_of_sysOpen ht hopen hid
    exact ⟨i, f, hi, hentry, hfile, fun d₂ heap' g hg hopen₂ ht₂ =>
      HostDir.sysRemove_of_open ht₂ hname hg hopen₂⟩

/-! ### The three calls -/

/-- The requests of a `Create`, an `Open` and a `Remove` have the same name, and it is good for what
it is used for. -/
def NamesAgree (create openFile remove : List Service) : Prop :=
  ∃ (created opened removed : CStr) (type : BitVec 32), create = [.sysCreate created.1] ∧
    openFile = [.sysOpen opened.1 type] ∧ remove = [.sysRemove removed.1] ∧
    created = opened ∧ opened = removed ∧ Usable created opened removed

/-- **The names of `Create`, `Open` and `Remove`.** If the three system calls return, for a string
of 1 to `MAXLENGTH` characters in user memory, they have used the same name exactly if the string
has at most 32 characters. -/
theorem file_names_agree_iff {K : Type} (S : Services K) (str : CStr)
    (hlen : 1 ≤ str.1.length ∧ (str.1.length : Int) ≤ maxLength) (s₁ s₂ s₃ : CallState K)
    (h₁ : Asks .create str s₁) (h₂ : Asks .openFile str s₂) (h₃ : Asks .remove str s₃)
    {rs₁ rs₂ rs₃ : List Service} (hr₁ : requests S s₁ = some rs₁) (hr₂ : requests S s₂ = some rs₂)
    (hr₃ : requests S s₃ = some rs₃) : NamesAgree rs₁ rs₂ rs₃ ↔ str.1.length ≤ 32 := by
  have hmax : maxLength = 255 := rfl
  obtain rfl := requests_name (by omega) rfl h₁ hr₁
  obtain rfl := requests_open h₂ hr₂
  obtain rfl := requests_name (by omega) rfl h₃ hr₃
  constructor
  · rintro ⟨created, opened, removed, type, hcreate, hopen, hremove, rfl, rfl, -⟩
    simp only [List.cons.injEq, Service.sysCreate.injEq, Service.sysOpen.injEq, and_true]
      at hcreate hopen
    have hsame : str.1.take 32 = str.1 := hopen.1.trans hcreate.symm
    have hle := List.length_take_le 32 str.1
    rwa [hsame] at hle
  · intro hle
    have htake : str.1.take 32 = str.1 := List.take_of_length_le hle
    rw [htake]
    exact ⟨str, str, str, _, rfl, rfl, rfl, rfl, rfl,
      usable_self (List.ne_nil_of_length_pos (by omega))⟩

/-- The system call `type` with the string at the address 0. -/
def nameCall (type : BitVec 32) (str : CStr) : CallState Unit :=
  ⟨(), (fileCall type 0 0 (str.1 ++ [0]) []).machine⟩

theorem nameCall_asks {type : BitVec 32} {str : CStr} {c : Sc}
    (hc : scOf ((nameCall type str).at 2) = some c)
    (haddr : ((nameCall type str).at 4).toNat = 0) (hlen : str.1.length < pageSize) :
    Asks c str (nameCall type str) := by
  refine ⟨hc, onePage, onePage_installed type 0 0 (str.1 ++ [0]) [], ?_⟩
  rw [haddr]
  have hbyte : ∀ i < pageSize, onePage.bytesFrom (nameCall type str).machine 0 i =
      some ((str.1 ++ [0]).getD i 1) := by
    intro i hi
    have hphys : onePage.physAddr (0 + i) = some i := by
      rw [Nat.zero_add, PageMap.physAddr, Nat.div_eq_of_lt hi, Nat.mod_eq_of_lt hi]
      exact congrArg some (Nat.zero_add i)
    rw [PageMap.bytesFrom, PageMap.byteAt, hphys]
    rfl
  constructor
  · intro i hi
    rw [hbyte i (by omega), List.getElem?_eq_getElem hi, List.getD_append _ _ _ _ hi,
      List.getD_eq_getElem _ _ hi]
  · rw [hbyte _ hlen, List.getD_append_right _ _ _ _ le_rfl, Nat.sub_self]
    rfl

theorem exists_requests (type : BitVec 32) (str : CStr)
    (h : (requests quiet (nameCall type str)).isSome = true) :
    ∃ rs, requests quiet (nameCall type str) = some rs := Option.isSome_iff_exists.mp h

/-- A name of 33 characters. -/
def longName : CStr := ⟨List.replicate 33 97, by decide⟩

/-- What `Open` uses of it, a name of 32 characters. -/
def longNameOpened : CStr := ⟨List.replicate 32 97, by decide⟩

/-- The three calls with a name of 32 characters. -/
theorem file_names_agree_longNameOpened : ∃ rs₁ rs₂ rs₃,
    requests quiet (nameCall 4 longNameOpened) = some rs₁ ∧
    requests quiet (nameCall 6 longNameOpened) = some rs₂ ∧
    requests quiet (nameCall 5 longNameOpened) = some rs₃ ∧ NamesAgree rs₁ rs₂ rs₃ := by
  obtain ⟨rs₁, h₁⟩ := exists_requests 4 longNameOpened (by decide +kernel)
  obtain ⟨rs₂, h₂⟩ := exists_requests 6 longNameOpened (by decide +kernel)
  obtain ⟨rs₃, h₃⟩ := exists_requests 5 longNameOpened (by decide +kernel)
  exact ⟨rs₁, rs₂, rs₃, h₁, h₂, h₃, (file_names_agree_iff quiet longNameOpened (by decide) _ _ _
    (nameCall_asks (by decide +kernel) (by decide +kernel) (by decide))
    (nameCall_asks (by decide +kernel) (by decide +kernel) (by decide))
    (nameCall_asks (by decide +kernel) (by decide +kernel) (by decide)) h₁ h₂ h₃).mpr (by decide)⟩

/-- `Open` uses another name than `Create`. A file that has just been created is not opened, and a
file that is open is removed. -/
theorem long_names_differ :
    requests quiet (nameCall 4 longName) = some [.sysCreate longName.1] ∧
    requests quiet (nameCall 6 longName) = some [.sysOpen longNameOpened.1 0] ∧
    (∃ d d₁ d₂, HostDir.sysCreate d longName 7 = .ok (1, d₁) ∧
      d₁.sysOpen (fun _ _ => 0) longNameOpened false 8 = .ok (-1, d₂)) ∧
    ∃ d d₁ d₂, HostDir.sysOpen d (fun _ _ => 0) longNameOpened false 8 = .ok (2, d₁) ∧
      d₁.sysRemove (fun _ _ => 0) longName = .ok (1, d₂) := by
  obtain ⟨rs₁, h₁⟩ := exists_requests 4 longName (by decide +kernel)
  obtain ⟨rs₂, h₂⟩ := exists_requests 6 longName (by decide +kernel)
  obtain rfl := requests_name (c := .create) (by decide) rfl
    (nameCall_asks (by decide +kernel) (by decide +kernel) (by decide)) h₁
  obtain rfl := requests_open (nameCall_asks (by decide +kernel) (by decide +kernel) (by decide)) h₂
  refine ⟨h₁, h₂, ⟨⟨.started, fun _ => false⟩, _, _, rfl, rfl⟩, ⟨.started, fun _ => true⟩, _, _,
    rfl, rfl⟩

end Nachos.UserProg
