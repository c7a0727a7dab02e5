import Nachos.Base.BoundedMap
import Nachos.Base.Transition
import Nachos.FileSys.Directory

namespace Nachos.FileSys

open Base Function

/-!
# FileSys — the directory as a map

What a directory is for: a map with at most `n` keys from names to sectors, where a name is no more
than the bytes that the comparison looks at (`nameOf`).

* `Directory.call` and `NameMap.call` — the same calls on the table and on the map;
* `recorded` — any run of calls, with what has been called and returned;
* `Represents` — the map a table stands for: the names of its entries in use, with their sectors;
* `Represents.call` — a call keeps that, and the two return the same;
* `lookup_eq_lastAdd` — what the map gives is what the calls so far say: the sector of the last
  successful `Add` of the name, unless a later `Remove` has taken it away.
-/

variable {n : ℕ}

/-! ### Calls -/

/-- A call of a directory. -/
inductive DirectoryCall where
  | add (name : Buffer) (newSector : Int)
  | remove (name : Buffer)
  | find (name : Buffer)

/-- What a call returns. -/
inductive DirectoryReply where
  | done (ok : Bool)
  | sector (s : Int)

/-- The calls so far with their replies, the last one first. -/
abbrev History := List (DirectoryCall × DirectoryReply)

/-- A call of `Add`, `Remove` or `Find`. -/
def Directory.call (dir : Directory n) : DirectoryCall → DirectoryReply × Directory n
  | .add name newSector => (.done (dir.add name newSector).1, (dir.add name newSector).2)
  | .remove name => (.done (dir.remove name).1, (dir.remove name).2)
  | .find name => (.sector (dir.find name), dir)

/-- A map with at most `n` names. -/
abbrev NameMap (n : ℕ) := BoundedMap (List UInt8) Int n

/-- The same calls on a map: only the bytes that identify a name matter. -/
def NameMap.call (m : NameMap n) : DirectoryCall → DirectoryReply × NameMap n
  | .add name newSector =>
    (.done (m.insert (nameOf name) newSector).1, (m.insert (nameOf name) newSector).2)
  | .remove name => (.done (m.erase (nameOf name)).1, (m.erase (nameOf name)).2)
  | .find name => (.sector ((m.lookup (nameOf name)).getD (-1)), m)

/-- Any run of calls, with what has been called and returned. -/
def recorded {S : Type} (init : S → Prop) (call : S → DirectoryCall → DirectoryReply × S) :
    LTS (S × History) DirectoryCall where
  init := fun p => init p.1 ∧ p.2 = []
  next := fun p c => .next ((call p.1 c).2, (c, (call p.1 c).1) :: p.2)

/-- Calls on a new directory, whatever `new` has left in it. -/
def directorySystem (n : ℕ) : LTS (Directory n × History) DirectoryCall :=
  recorded (fun dir => ∃ junk, dir = .new n junk) Directory.call

/-- Calls on the map without names. -/
def nameMapSystem (n : ℕ) : LTS (NameMap n × History) DirectoryCall :=
  recorded (fun m => m = .empty) NameMap.call

/-- The sector of the last successful `Add` with the given name, if it has not been removed
since. -/
def lastAdd : History → List UInt8 → Option Int
  | [], _ => none
  | (.add name newSector, .done true) :: older, key =>
    if key = nameOf name then some newSector else lastAdd older key
  | (.remove name, .done true) :: older, key =>
    if key = nameOf name then none else lastAdd older key
  | _ :: older, key => lastAdd older key

/-- **The map and the calls agree.** -/
theorem lookup_eq_lastAdd {p : NameMap n × History} (h : (nameMapSystem n).Reachable p) :
    p.1.lookup = lastAdd p.2 := by
  apply h.invariant (I := fun p => p.1.lookup = lastAdd p.2)
  · rintro ⟨m, hist⟩ ⟨hm, hhist⟩
    simp only at hm hhist
    subst hm hhist
    rfl
  · rintro ⟨m, hist⟩ c p' ih hstep
    cases hstep
    simp only at ih ⊢
    cases c with
    | add name newSector =>
      by_cases hroom : m.HasRoom (nameOf name)
      · obtain ⟨hok, hlookup⟩ := BoundedMap.insert_of_hasRoom (v := newSector) hroom
        funext key
        simp only [NameMap.call, hok, hlookup, lastAdd, update_apply, ih]
      · have hfail := BoundedMap.insert_of_not_hasRoom (v := newSector) hroom
        simp only [NameMap.call, hfail, lastAdd, ih]
    | remove name =>
      by_cases hmem : m.lookup (nameOf name) = none
      · have hfail := BoundedMap.erase_of_notMem hmem
        simp only [NameMap.call, hfail, lastAdd, ih]
      · obtain ⟨hok, hlookup⟩ := BoundedMap.erase_of_mem hmem
        funext key
        simp only [NameMap.call, hok, hlookup, lastAdd, update_apply, ih]
    | find name =>
      simp only [NameMap.call, lastAdd, ih]

/-! ### The map of a table -/

namespace Directory

/-- The entries in use. -/
def used (dir : Directory n) : Finset (Fin n) := Finset.univ.filter fun i => (dir.table.get i).inUse

variable {dir : Directory n}

theorem holds_of_mem_used {i : Fin n} (h : i ∈ dir.used) : dir.Holds i (dir.table.get i) := by
  refine ⟨?_, (Finset.mem_filter.mp h).2⟩
  exact Vector.getElem?_eq_getElem i.isLt

theorem Holds.mem_used {i : ℕ} {e : DirectoryEntry} (h : dir.Holds i e) :
    ∃ hi : i < n, (⟨i, hi⟩ : Fin n) ∈ dir.used ∧ dir.table[i] = e := by
  obtain ⟨hi, he⟩ := Vector.getElem?_eq_some_iff.mp h.1
  refine ⟨hi, Finset.mem_filter.mpr ⟨Finset.mem_univ _, ?_⟩, he⟩
  show dir.table[i].inUse = true
  rw [he]
  exact h.2

/-- All entries are in use, or fewer than `n` of them. -/
theorem card_used_eq_iff :
    dir.used.card = n ↔ ∀ (i : ℕ) e, dir.table[i]? = some e → e.inUse = true := by
  constructor
  · intro hcard i e he
    obtain ⟨hi, rfl⟩ := Vector.getElem?_eq_some_iff.mp he
    have huniv : dir.used = Finset.univ := by
      apply Finset.eq_univ_of_card
      rw [hcard, Fintype.card_fin]
    have hmem : (⟨i, hi⟩ : Fin n) ∈ dir.used := huniv ▸ Finset.mem_univ _
    exact (Finset.mem_filter.mp hmem).2
  · intro hall
    have huniv : dir.used = Finset.univ := by
      ext i
      simp only [used, Finset.mem_filter, Finset.mem_univ, true_and, iff_true]
      exact hall i _ (Vector.getElem?_eq_getElem i.isLt)
    rw [huniv, Finset.card_univ, Fintype.card_fin]

theorem card_used_le : dir.used.card ≤ n := by
  have := Finset.card_le_univ dir.used
  rwa [Fintype.card_fin] at this

end Directory

/-- The map `m` is what the table of `dir` stands for. -/
structure Represents (dir : Directory n) (m : NameMap n) : Prop where
  distinct : dir.Distinct
  lookup : ∀ key s, m.lookup key = some s ↔
    ∃ i e, dir.Holds i e ∧ nameOf e.nameBuffer = key ∧ e.sector = s

namespace Represents

variable {dir : Directory n} {m : NameMap n}

theorem lookup_eq_none_iff (h : Represents dir m) (key : List UInt8) :
    m.lookup key = none ↔ ∀ i e, dir.Holds i e → nameOf e.nameBuffer ≠ key := by
  constructor
  · intro hnone i e he hkey
    have hsome := (h.lookup key e.sector).mpr ⟨i, e, he, hkey, rfl⟩
    rw [hnone] at hsome
    cases hsome
  · intro hall
    cases hlookup : m.lookup key with
    | none => rfl
    | some s =>
      obtain ⟨i, e, he, hkey, -⟩ := (h.lookup key s).mp hlookup
      exact absurd hkey (hall i e he)

/-- A new directory stands for the map without names. -/
theorem new (junk : Buffer) : Represents (.new n junk) .empty where
  distinct := fun _ _ _ _ he => absurd he (Directory.not_holds_new junk)
  lookup := by
    intro key s
    constructor
    · intro h
      cases h
    · rintro ⟨i, e, he, -⟩
      exact absurd he (Directory.not_holds_new junk)

variable (h : Represents dir m)

include h

/-- **`FindIndex` and `Find`** look a name up. -/
theorem find_eq (name : Buffer) :
    (dir.findIndex name = -1 ↔ m.lookup (nameOf name) = none) ∧
      dir.find name = (m.lookup (nameOf name)).getD (-1) := by
  obtain ⟨i, e, he, hname, hidx, hfind⟩ | ⟨hnone, hidx, hfind⟩ := dir.find_cases name
  · have hsome : m.lookup (nameOf name) = some e.sector :=
      (h.lookup _ _).mpr ⟨i, e, he, hname, rfl⟩
    rw [hsome, hfind, hidx]
    refine ⟨⟨fun hneg => ?_, fun hneg => ?_⟩, rfl⟩
    · omega
    · cases hneg
  · have hnone' := (h.lookup_eq_none_iff (nameOf name)).mpr hnone
    rw [hnone', hfind, hidx]
    exact ⟨by simp, rfl⟩

/-- There are as many names as entries in use. -/
theorem card_eq : m.keys.card = dir.used.card := by
  have hkeys : m.keys = dir.used.image fun i => nameOf dir.table[i].nameBuffer := by
    ext key
    rw [m.mem_keys, Finset.mem_image, Option.ne_none_iff_exists']
    constructor
    · rintro ⟨s, hs⟩
      obtain ⟨i, e, he, hkey, -⟩ := (h.lookup key s).mp hs
      obtain ⟨hi, hmem, rfl⟩ := he.mem_used
      exact ⟨⟨i, hi⟩, hmem, hkey⟩
    · rintro ⟨i, hmem, hkey⟩
      exact ⟨_, (h.lookup key _).mpr ⟨i, _, Directory.holds_of_mem_used hmem, hkey, rfl⟩⟩
  rw [hkeys]
  apply Finset.card_image_of_injOn
  intro i hi j hj hname
  have hi' := Directory.holds_of_mem_used (Finset.mem_coe.mp hi)
  have hj' := Directory.holds_of_mem_used (Finset.mem_coe.mp hj)
  exact Fin.ext (h.distinct _ _ _ _ hi' hj' hname)

/-- Another entry in use with a new name puts that name into the map. -/
theorem insert {dir' : Directory n} {m' : NameMap n} {i₀ : ℕ}
    {e₀ : DirectoryEntry} (hnew : m.lookup (nameOf e₀.nameBuffer) = none)
    (hholds : ∀ j e, dir'.Holds j e ↔ (j = i₀ ∧ e = e₀) ∨ dir.Holds j e)
    (hlookup : m'.lookup = update m.lookup (nameOf e₀.nameBuffer) (some e₀.sector)) :
    Represents dir' m' := by
  have habsent := (h.lookup_eq_none_iff _).mp hnew
  constructor
  · intro i j e e' he he' hname
    rcases (hholds i e).mp he with ⟨rfl, rfl⟩ | hold
    · rcases (hholds j e').mp he' with ⟨rfl, -⟩ | hold'
      · rfl
      · exact absurd hname.symm (habsent j e' hold')
    · rcases (hholds j e').mp he' with ⟨rfl, rfl⟩ | hold'
      · exact absurd hname (habsent i e hold)
      · exact h.distinct i j e e' hold hold' hname
  · intro key s
    rw [hlookup, update_apply]
    by_cases hkey : key = nameOf e₀.nameBuffer
    · rw [if_pos hkey]
      constructor
      · intro hs
        exact ⟨i₀, e₀, (hholds i₀ e₀).mpr (.inl ⟨rfl, rfl⟩), hkey.symm, Option.some.inj hs⟩
      · rintro ⟨j, e, he, hname, rfl⟩
        rcases (hholds j e).mp he with ⟨-, rfl⟩ | hold
        · rfl
        · exact absurd (hname.trans hkey) (habsent j e hold)
    · rw [if_neg hkey, h.lookup]
      constructor
      · rintro ⟨j, e, he, hname, hs⟩
        exact ⟨j, e, (hholds j e).mpr (.inr he), hname, hs⟩
      · rintro ⟨j, e, he, hname, hs⟩
        rcases (hholds j e).mp he with ⟨-, rfl⟩ | hold
        · exact absurd hname.symm hkey
        · exact ⟨j, e, hold, hname, hs⟩

/-- One entry in use less takes its name out of the map. -/
theorem erase {dir' : Directory n} {m' : NameMap n} {i₀ : ℕ}
    {e₀ : DirectoryEntry} (he₀ : dir.Holds i₀ e₀)
    (hholds : ∀ j e, dir'.Holds j e ↔ j ≠ i₀ ∧ dir.Holds j e)
    (hlookup : m'.lookup = update m.lookup (nameOf e₀.nameBuffer) none) :
    Represents dir' m' := by
  constructor
  · intro i j e e' he he' hname
    exact h.distinct i j e e' ((hholds i e).mp he).2 ((hholds j e').mp he').2 hname
  · intro key s
    rw [hlookup, update_apply]
    by_cases hkey : key = nameOf e₀.nameBuffer
    · rw [if_pos hkey]
      constructor
      · intro hs
        cases hs
      · rintro ⟨j, e, he, hname, -⟩
        obtain ⟨hne, hold⟩ := (hholds j e).mp he
        exact absurd (h.distinct j i₀ e e₀ hold he₀ (hname.trans hkey)) hne
    · rw [if_neg hkey, h.lookup]
      constructor
      · rintro ⟨j, e, he, hname, hs⟩
        refine ⟨j, e, (hholds j e).mpr ⟨?_, he⟩, hname, hs⟩
        rintro rfl
        rw [he.unique he₀] at hname
        exact hkey hname.symm
      · rintro ⟨j, e, he, hname, hs⟩
        exact ⟨j, e, ((hholds j e).mp he).2, hname, hs⟩

/-- **`Add`** puts a name into the map, or finds no room for it and changes nothing. -/
theorem add (name : Buffer) (newSector : Int) :
    (m.HasRoom (nameOf name) ∧ (dir.add name newSector).1 = true ∧
      Represents (dir.add name newSector).2 (m.insert (nameOf name) newSector).2) ∨
    (¬ m.HasRoom (nameOf name) ∧ dir.add name newSector = (false, dir)) := by
  by_cases hmiss : dir.findIndex name = -1
  · have habsent := (h.find_eq name).1.mp hmiss
    obtain ⟨i, e, he, hfree, hadd⟩ | ⟨hfull, hadd⟩ := Directory.add_cases hmiss newSector
    · have hroom : m.HasRoom (nameOf name) := by
        refine ⟨habsent, ?_⟩
        rw [h.card_eq]
        apply lt_of_le_of_ne Directory.card_used_le
        intro hcard
        have huse := Directory.card_used_eq_iff.mp hcard i e he
        rw [hfree] at huse
        cases huse
      refine .inl ⟨hroom, by rw [hadd], ?_⟩
      rw [hadd]
      have hname : nameOf (e.assign name newSector).nameBuffer = nameOf name :=
        DirectoryEntry.nameOf_assign e name newSector
      have hlookup := (BoundedMap.insert_of_hasRoom (v := newSector) hroom).2
      have hholds : ∀ j e', (dir.modify i fun e => e.assign name newSector).Holds j e' ↔
          (j = i ∧ e' = e.assign name newSector) ∨ dir.Holds j e' :=
        fun j e' => Directory.holds_add he hfree
      apply h.insert _ hholds
      · rw [hname, hlookup]
        rfl
      · rw [hname]
        exact habsent
    · refine .inr ⟨fun hroom => ?_, hadd⟩
      have hlt := hroom.2
      rw [h.card_eq, Directory.card_used_eq_iff.mpr hfull] at hlt
      exact lt_irrefl n hlt
  · refine .inr ⟨fun hroom => hmiss ((h.find_eq name).1.mpr hroom.1), ?_⟩
    rw [Directory.add, if_pos hmiss]

/-- **`Remove`** takes a name out of the map, or does not find it and changes nothing. -/
theorem remove (name : Buffer) :
    (m.lookup (nameOf name) ≠ none ∧ (dir.remove name).1 = true ∧
      Represents (dir.remove name).2 (m.erase (nameOf name)).2) ∨
    (m.lookup (nameOf name) = none ∧ dir.remove name = (false, dir)) := by
  have hiff := (h.find_eq name).1
  obtain ⟨i, e, he, hname, hidx, -⟩ | ⟨-, hidx, -⟩ := dir.find_cases name
  · have hfound : dir.findIndex name ≠ -1 := by omega
    have hpresent : m.lookup (nameOf name) ≠ none := fun hnone => hfound (hiff.mpr hnone)
    have hremove : dir.remove name
        = (true, dir.modify i fun e => { e with inUse := false }) := by
      rw [Directory.remove, if_neg hfound, hidx, Int.toNat_natCast]
    refine .inl ⟨hpresent, by rw [hremove], ?_⟩
    rw [hremove]
    refine h.erase he ?_ ?_
    · exact fun j e' => Directory.holds_remove
    · rw [hname]
      exact (BoundedMap.erase_of_mem hpresent).2
  · exact .inr ⟨hiff.mp hidx, by rw [Directory.remove, if_pos hidx]⟩

/-- **A call** on the table and on its map returns the same and keeps that it is its map. -/
theorem call (c : DirectoryCall) :
    (dir.call c).1 = (NameMap.call m c).1 ∧ Represents (dir.call c).2 (NameMap.call m c).2 := by
  cases c with
  | add name newSector =>
    simp only [Directory.call, NameMap.call]
    obtain ⟨hroom, hok, hrep⟩ | ⟨hroom, hfail⟩ := h.add name newSector
    · exact ⟨by rw [hok, (BoundedMap.insert_of_hasRoom hroom).1], hrep⟩
    · simp only [hfail, BoundedMap.insert_of_not_hasRoom hroom]
      exact ⟨trivial, h⟩
  | remove name =>
    simp only [Directory.call, NameMap.call]
    obtain ⟨hmem, hok, hrep⟩ | ⟨hmem, hfail⟩ := h.remove name
    · exact ⟨by rw [hok, (BoundedMap.erase_of_mem hmem).1], hrep⟩
    · simp only [hfail, BoundedMap.erase_of_notMem hmem]
      exact ⟨trivial, h⟩
  | find name =>
    simp only [Directory.call, NameMap.call]
    exact ⟨by rw [(h.find_eq name).2], h⟩

end Represents

/-- **Refinement.** After any calls, the table stands for a map that the same calls lead to, with
the same replies. -/
theorem directory_simulates {p : Directory n × History} (h : (directorySystem n).Reachable p) :
    ∃ m, (nameMapSystem n).Reachable (m, p.2) ∧ Represents p.1 m := by
  have hsim : ∃ q, (nameMapSystem n).Reachable q ∧ p.2 = q.2 ∧ Represents p.1 q.1 := by
    apply h.simulate
    · rintro ⟨dir, hist⟩ ⟨⟨junk, hdir⟩, hhist⟩
      simp only at hdir hhist
      subst hdir hhist
      exact ⟨(.empty, []), ⟨rfl, rfl⟩, rfl, .new junk⟩
    · rintro ⟨dir, hist⟩ c p' ⟨m, hist'⟩ ⟨heq, hrep⟩ hstep
      cases hstep
      simp only at heq hrep
      subst heq
      obtain ⟨hreply, hrep'⟩ := hrep.call c
      exact ⟨c, _, rfl, by simp only [hreply], hrep'⟩
  obtain ⟨⟨m, hist⟩, hreach, heq, hrep⟩ := hsim
  exact ⟨m, heq ▸ hreach, hrep⟩

/-- **A directory is a bounded map of the first nine bytes of names.** After any calls of `Add`,
`Remove` and `Find` on a new directory of any size: it stands for a map that the same calls lead
to with the same replies; no two entries in use agree on their first bytes; `Find` returns the
sector of the last `Add` that has succeeded with the name and has not been removed, or -1; `Add`
succeeds if and only if there is none and an entry is free; `Remove` succeeds if and only if there
is one; a call that fails changes nothing. -/
theorem directory_refines_bounded_map (n : ℕ) (dir : Directory n) (hist : History)
    (h : (directorySystem n).Reachable (dir, hist)) :
    (∃ m, (nameMapSystem n).Reachable (m, hist) ∧ Represents dir m) ∧
    dir.Distinct ∧
    (∀ name, dir.find name = (lastAdd hist (nameOf name)).getD (-1)) ∧
    (∀ name newSector, (dir.add name newSector).1 = true ↔
      lastAdd hist (nameOf name) = none ∧ dir.used.card < n) ∧
    (∀ name, (dir.remove name).1 = true ↔ lastAdd hist (nameOf name) ≠ none) ∧
    (∀ name newSector, (dir.add name newSector).1 = false → (dir.add name newSector).2 = dir) ∧
    (∀ name, (dir.remove name).1 = false → (dir.remove name).2 = dir) := by
  obtain ⟨m, hreach, hrep⟩ := directory_simulates h
  have hlast : m.lookup = lastAdd hist := lookup_eq_lastAdd hreach
  have hroom : ∀ key, m.HasRoom key ↔ lastAdd hist key = none ∧ dir.used.card < n := by
    intro key
    rw [← hlast, ← hrep.card_eq]
    rfl
  refine ⟨⟨m, hreach, hrep⟩, hrep.distinct, ?_, ?_, ?_, ?_, ?_⟩
  · intro name
    rw [← hlast]
    exact (hrep.find_eq name).2
  · intro name newSector
    rw [← hroom]
    obtain ⟨hyes, hok, -⟩ | ⟨hno, hfail⟩ := hrep.add name newSector
    · simp [hyes, hok]
    · simp [hno, hfail]
  · intro name
    rw [← hlast]
    obtain ⟨hyes, hok, -⟩ | ⟨hno, hfail⟩ := hrep.remove name
    · simp [hyes, hok]
    · simp [hno, hfail]
  · intro name newSector hfalse
    obtain ⟨-, hok, -⟩ | ⟨-, hfail⟩ := hrep.add name newSector
    · rw [hok] at hfalse
      cases hfalse
    · rw [hfail]
  · intro name hfalse
    obtain ⟨-, hok, -⟩ | ⟨-, hfail⟩ := hrep.remove name
    · rw [hok] at hfalse
      cases hfalse
    · rw [hfail]

/-- A name of ten letters: nine times `a` and another one. -/
def longName (last : UInt8) : Buffer := fun k =>
  if k < fileNameMaxLen then 97 else if k = fileNameMaxLen then last else 0

/-- Two long names with the same first nine letters are one name: after the first has been added,
the second is found, and cannot be added. -/
theorem directory_refines_bounded_map_longName :
    ∃ dir hist, (directorySystem 2).Reachable (dir, hist) ∧ dir.find (longName 99) = 5 ∧
      (dir.add (longName 99) 6).1 ≠ true := by
  let dir := Directory.new 2 fun _ => 7
  have hok : (dir.add (longName 98) 5).1 = true := by decide +kernel
  have h : (directorySystem 2).Reachable
      ((dir.add (longName 98) 5).2, [(.add (longName 98) 5, .done (dir.add (longName 98) 5).1)]) :=
    LTS.Reachable.step (l := .add (longName 98) 5)
      (.init (s := (dir, [])) ⟨⟨_, rfl⟩, rfl⟩) rfl
  rw [hok] at h
  have hsame : nameOf (longName 99) = nameOf (longName 98) := by decide +kernel
  have hlast : lastAdd [(.add (longName 98) 5, .done true)] (nameOf (longName 99)) = some 5 := by
    rw [lastAdd, if_pos hsame]
  obtain ⟨-, -, hfind, hadd, -⟩ := directory_refines_bounded_map 2 _ _ h
  refine ⟨_, _, h, ?_, ?_⟩
  · rw [hfind, hlast]
    rfl
  · rw [ne_eq, hadd, hlast]
    simp

end Nachos.FileSys
