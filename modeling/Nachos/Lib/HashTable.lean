import Nachos.Base.Transition
import Nachos.Lib.List
import Mathlib.Algebra.GroupWithZero.Nat
import Mathlib.Data.List.Perm.Basic

namespace Nachos.Lib

open Base Function

/-!
# Lib — the self-expanding `HashTable` of `lib/hash.cc`

A table is an array of buckets, each of them a `List`; `Insert` makes the array four times as
long when there are three items for each bucket. A runtime check that fails, an index outside
the array included, gives `none`.

* `HashTable.Inv` — what every operation keeps: each item is in the bucket of its key, and no two
  items have the same key;
* `HashTable.toMap` — the finite map that a table stands for;
* `hashSystem` — any sequence of `Insert` and `Remove`, together with the map it is about.

`getKey` and `hash` are the two functions given to the constructor. The counters are not
wrapped: an item of a `List` takes eight bytes of a 32-bit address space, so that there are
always fewer than `2 ^ 29` of them.
-/

variable {Key T : Type*}

/-! ### The table -/

/-- `InitialBuckets`. -/
def initialBuckets : Int := 4

/-- `ResizeRatio`. -/
def resizeRatio : Int := 3

/-- `IncreaseSizeBy`. -/
def increaseSizeBy : Int := 4

/-- `HashTable`. -/
structure HashTable (T : Type*) where
  buckets : List (List T)
  numBuckets : Int
  numItems : Int
  deriving DecidableEq

namespace HashTable

/-- `HashTable::InitBuckets`. -/
def initBuckets (t : HashTable T) (sz : Int) : HashTable T :=
  { t with numBuckets := sz, buckets := List.replicate sz.toNat [] }

/-- `HashTable::HashTable`. -/
def new : HashTable T := initBuckets ⟨[], 0, 0⟩ initialBuckets

/-- `HashTable::HashValue`, with its `ASSERT`. -/
def hashValue (hash : Key → UInt32) (t : HashTable T) (key : Key) : Option Int :=
  let result : Int := (hash key).toNat % t.numBuckets
  if result ≥ 0 ∧ result < t.numBuckets then some result else none

/-- `buckets[i]->Append(item)`. -/
def appendTo [DecidableEq T] (t : HashTable T) (i : Int) (item : T) : Option (HashTable T) :=
  t.buckets[i.toNat]?.bind fun bucket =>
    (append bucket item).map fun bucket => { t with buckets := t.buckets.set i.toNat bucket }

variable [DecidableEq Key] (getKey : T → Key) (hash : Key → UInt32)

/-- `HashTable::FindInBucket`: the item, or `NULL`. -/
def findInBucket (t : HashTable T) (bucket : Int) (key : Key) : Option (Option T) :=
  t.buckets[bucket.toNat]?.map fun l => l.find? fun item => key = getKey item

/-- `HashTable::Find`. -/
def find (t : HashTable T) (key : Key) : Option (Option T) :=
  (t.hashValue hash key).bind fun bucket => t.findInBucket getKey bucket key

/-- `HashTable::IsInTable`. -/
def isInTable (t : HashTable T) (key : Key) : Option Bool :=
  (t.find getKey hash key).map Option.isSome

omit [DecidableEq Key] in
/-- The round of `SanityCheck` for bucket `i`; `List::SanityCheck` has nothing to check here. -/
def checkBucket (t : HashTable T) (numFound : Int) (i : ℕ) : Option Int :=
  t.buckets[i]?.bind fun l =>
    if ∀ item ∈ l, t.hashValue hash (getKey item) = some (i : Int) then some (numFound + l.length)
    else none

omit [DecidableEq Key] in
/-- `HashTable::SanityCheck`: whether it passes. -/
def sanityCheck (t : HashTable T) : Bool :=
  (List.range t.numBuckets.toNat).foldlM (t.checkBucket getKey hash) 0 = some t.numItems

variable [DecidableEq T]

omit [DecidableEq Key] in
/-- The inner loop of `ReHash`: the items of an old bucket, from the front, go to their new
buckets. -/
def moveItems (t : HashTable T) : List T → Option (HashTable T)
  | [] => some t
  | item :: rest =>
    (t.hashValue hash (getKey item)).bind fun i =>
      (t.appendTo i item).bind fun t => moveItems t rest

omit [DecidableEq Key] in
/-- `HashTable::ReHash`. -/
def reHash (t : HashTable T) : Option (HashTable T) :=
  let oldTable := t.buckets
  let oldSize := t.numBuckets
  if t.sanityCheck getKey hash = false then none
  else
    ((List.range oldSize.toNat).foldlM
      (fun t i => oldTable[i]?.bind (moveItems getKey hash t))
      (t.initBuckets (t.numBuckets * increaseSizeBy))).bind fun t =>
        if t.sanityCheck getKey hash then some t else none

omit [DecidableEq Key] in
/-- The test at the start of `Insert`: resize if there are too many items for the buckets. -/
def grow (t : HashTable T) : Option (HashTable T) :=
  if t.numItems.tdiv t.numBuckets ≥ resizeRatio then t.reHash getKey hash else some t

/-- `HashTable::Insert`. -/
def insert (t : HashTable T) (item : T) : Option (HashTable T) :=
  (t.isInTable getKey hash (getKey item)).bind fun found =>
    -- `ASSERT(!IsInTable(key))`
    if found then none
    else
      (t.grow getKey hash).bind fun t =>
        (t.hashValue hash (getKey item)).bind fun i =>
          (t.appendTo i item).bind fun t =>
            let t := { t with numItems := t.numItems + 1 }
            -- `ASSERT(IsInTable(key))`
            (t.isInTable getKey hash (getKey item)).bind fun found => if found then some t else none

/-- `HashTable::Remove`. -/
def remove (t : HashTable T) (key : Key) : Option (T × HashTable T) :=
  (t.hashValue hash key).bind fun i =>
    (t.findInBucket getKey i key).bind fun found =>
      -- `ASSERT(found)`
      found.bind fun item =>
        (t.buckets[i.toNat]?.bind fun bucket => Lib.remove bucket item).bind fun bucket =>
          let t := { t with buckets := t.buckets.set i.toNat bucket, numItems := t.numItems - 1 }
          -- `ASSERT(!IsInTable(key))`
          (t.isInTable getKey hash key).bind fun found => if found then none else some (item, t)

end HashTable

/-! ### Lists of items and the maps they stand for -/

section MapOf

variable [DecidableEq Key] {getKey : T → Key} {l l' : List T} {x : T} {key : Key}

/-- The item with a given key. -/
def mapOf (getKey : T → Key) (l : List T) (key : Key) : Option T :=
  l.find? fun item => key = getKey item

/-- In a list without equal keys, the item with a key is the only one. -/
theorem mapOf_eq_some_iff (hnd : (l.map getKey).Nodup) :
    mapOf getKey l key = some x ↔ x ∈ l ∧ getKey x = key := by
  constructor
  · intro h
    exact ⟨List.mem_of_find?_eq_some h, (by simpa using List.find?_some h : key = getKey x).symm⟩
  · rintro ⟨hx, rfl⟩
    cases hfind : mapOf getKey l (getKey x) with
    | none => simpa using List.find?_eq_none.mp hfind x hx
    | some y =>
      have hkey : getKey x = getKey y := by simpa using List.find?_some hfind
      rw [List.inj_on_of_nodup_map hnd hx (List.mem_of_find?_eq_some hfind) hkey]

theorem mapOf_eq_none_iff : mapOf getKey l key = none ↔ key ∉ l.map getKey := by
  simp [mapOf, @eq_comm _ key]

theorem mapOf_perm (hp : l.Perm l') (hnd : (l.map getKey).Nodup) :
    mapOf getKey l = mapOf getKey l' := by
  funext key
  ext x
  rw [mapOf_eq_some_iff hnd, mapOf_eq_some_iff ((hp.map getKey).nodup_iff.mp hnd), hp.mem_iff]

/-- One more item defines the map at one more key. -/
theorem mapOf_cons : mapOf getKey (x :: l) = update (mapOf getKey l) (getKey x) (some x) := by
  funext key
  by_cases hkey : key = getKey x
  · subst hkey
    simp [mapOf]
  · simp [mapOf, hkey]

theorem update_mapOf_cons (hx : getKey x ∉ l.map getKey) :
    update (mapOf getKey (x :: l)) (getKey x) none = mapOf getKey l := by
  rw [mapOf_cons, update_idem, ← mapOf_eq_none_iff.mpr hx, update_eq_self]

end MapOf

/-- What one entry of a list of lists contributes to the whole. -/
theorem flatten_set_perm (bs : List (List T)) {i : ℕ} (hi : i < bs.length) (l : List T) :
    (bs.set i l).flatten.Perm (l ++ (bs.set i []).flatten) := by
  induction bs generalizing i with
  | nil => simp at hi
  | cons b bs ih =>
    cases i with
    | zero => simp
    | succ i =>
      have hrest := ih (by simpa using hi)
      calc (b :: bs.set i l).flatten
          _ = b ++ (bs.set i l).flatten := List.flatten_cons
          _ |>.Perm (b ++ (l ++ (bs.set i []).flatten)) := hrest.append_left b
          _ |>.Perm (l ++ (b ++ (bs.set i []).flatten)) := by
            rw [← List.append_assoc, ← List.append_assoc]
            exact List.perm_append_comm.append_right _

/-! ### Where the items are -/

namespace HashTable

/-- The items of a table, bucket by bucket. -/
def items (t : HashTable T) : List T := t.buckets.flatten

/-- The bucket of a key. -/
def home (hash : Key → UInt32) (t : HashTable T) (key : Key) : ℕ :=
  (hash key).toNat % t.buckets.length

/-- Every item is in the bucket of its key. -/
structure Placed (getKey : T → Key) (hash : Key → UInt32) (t : HashTable T) : Prop where
  numBuckets_eq : t.numBuckets = t.buckets.length
  pos : 0 < t.buckets.length
  home_eq : ∀ i l, t.buckets[i]? = some l → ∀ x ∈ l, t.home hash (getKey x) = i

/-- The table stands for the items in it. -/
structure Inv (getKey : T → Key) (hash : Key → UInt32) (t : HashTable T) : Prop where
  placed : t.Placed getKey hash
  nodup : (t.items.map getKey).Nodup
  numItems_eq : t.numItems = t.items.length

variable {getKey : T → Key} {hash : Key → UInt32} {t t' : HashTable T} {l : List T} {x : T}
    {key : Key}

theorem items_initBuckets (t : HashTable T) (sz : Int) : (t.initBuckets sz).items = [] := by
  simp [items, initBuckets]

theorem placed_initBuckets (t : HashTable T) {sz : Int} (hsz : 0 < sz) :
    (t.initBuckets sz).Placed getKey hash := by
  refine ⟨?_, ?_, fun i l hl x hx => ?_⟩
  · simp only [initBuckets, List.length_replicate]
    omega
  · simp only [initBuckets, List.length_replicate]
    omega
  · obtain rfl := List.eq_of_mem_replicate (List.mem_of_getElem? hl)
    cases hx

namespace Placed

theorem home_lt (h : t.Placed getKey hash) (key : Key) : t.home hash key < t.buckets.length :=
  Nat.mod_lt _ h.pos

/-- The assertion in `HashValue` holds. -/
theorem hashValue_eq (h : t.Placed getKey hash) (key : Key) :
    t.hashValue hash key = some (t.home hash key : Int) := by
  have hlt := h.home_lt key
  have hval : ((hash key).toNat : Int) % t.numBuckets = (t.home hash key : ℕ) := by
    rw [h.numBuckets_eq, home, Int.natCast_mod]
  simp only [hashValue, hval]
  rw [if_pos (by rw [h.numBuckets_eq]; omega)]

/-- The bucket of a key holds the items of the table that belong there. -/
theorem exists_bucket (h : t.Placed getKey hash) (key : Key) :
    ∃ l, t.buckets[t.home hash key]? = some l ∧
      ∀ x, x ∈ l ↔ x ∈ t.items ∧ t.home hash (getKey x) = t.home hash key := by
  have hlt := h.home_lt key
  refine ⟨t.buckets[t.home hash key], List.getElem?_eq_getElem hlt, fun x => ⟨fun hx => ?_, ?_⟩⟩
  · exact ⟨List.mem_flatten.mpr ⟨_, List.getElem_mem hlt, hx⟩,
      h.home_eq _ _ (List.getElem?_eq_getElem hlt) x hx⟩
  · rintro ⟨hx, hhome⟩
    obtain ⟨l, hl, hxl⟩ := List.mem_flatten.mp hx
    obtain ⟨i, hi⟩ := List.mem_iff_getElem?.mp hl
    obtain rfl : t.home hash key = i := hhome.symm.trans (h.home_eq i l hi x hxl)
    have := List.getElem?_eq_some_iff.mp hi
    rwa [this.2]

/-- A bucket gets another list of items that belong there. -/
theorem set (h : t.Placed getKey hash) {i : ℕ} (hl : ∀ x ∈ l, t.home hash (getKey x) = i)
    (n : Int) : Placed getKey hash ⟨t.buckets.set i l, t.numBuckets, n⟩ := by
  have hhome : ∀ key, home hash ⟨t.buckets.set i l, t.numBuckets, n⟩ key = t.home hash key := by
    intro key
    simp [home]
  refine ⟨by simpa using h.numBuckets_eq, by simpa using h.pos, fun j m hm x hx => ?_⟩
  rw [hhome]
  rw [List.getElem?_set] at hm
  split at hm
  · rename_i hij
    split at hm
    · cases hm
      rw [← hij]
      exact hl x hx
    · cases hm
  · exact h.home_eq j m hm x hx

/-- What a bucket contributes to the items. -/
theorem items_set {i : ℕ} {b : List T} (hb : t.buckets[i]? = some b) (l : List T) :
    t.items.Perm (b ++ (t.buckets.set i []).flatten) ∧
      (t.buckets.set i l).flatten.Perm (l ++ (t.buckets.set i []).flatten) := by
  obtain ⟨hi, rfl⟩ := List.getElem?_eq_some_iff.mp hb
  refine ⟨?_, flatten_set_perm _ hi l⟩
  have := flatten_set_perm t.buckets hi t.buckets[i]
  rwa [List.set_getElem_self] at this

/-- A new item goes to its bucket. -/
theorem appendTo_eq [DecidableEq T] (h : t.Placed getKey hash) (hx : x ∉ t.items) :
    ∃ t', t.appendTo (t.home hash (getKey x)) x = some t' ∧ t'.Placed getKey hash ∧
      t'.numItems = t.numItems ∧ t'.items.Perm (x :: t.items) := by
  obtain ⟨b, hb, hmem⟩ := h.exists_bucket (getKey x)
  have hxb : x ∉ b := fun hxb => hx ((hmem x).mp hxb).1
  obtain ⟨hold, hnew⟩ := items_set hb (b ++ [x])
  refine ⟨⟨t.buckets.set (t.home hash (getKey x)) (b ++ [x]), t.numBuckets, t.numItems⟩, ?_, ?_,
    rfl, ?_⟩
  · simp only [appendTo, Int.toNat_natCast, hb, Option.bind_some, append_of_notMem hxb,
      Option.map_some]
  · refine h.set (fun y hy => ?_) _
    rcases List.mem_append.mp hy with hy | hy
    · exact ((hmem y).mp hy).2
    · rw [List.mem_singleton.mp hy]
  · calc (t.buckets.set (t.home hash (getKey x)) (b ++ [x])).flatten
        _ |>.Perm ((b ++ [x]) ++ (t.buckets.set (t.home hash (getKey x)) []).flatten) := hnew
        _ |>.Perm (x :: (b ++ (t.buckets.set (t.home hash (getKey x)) []).flatten)) := by
          rw [List.append_assoc]
          exact List.perm_middle
        _ |>.Perm (x :: t.items) := hold.symm.cons x

/-! ### Rehashing -/

/-- The inner loop of `ReHash` adds the items of a bucket. -/
theorem moveItems_eq [DecidableEq T] (h : t.Placed getKey hash) (hnd : (l ++ t.items).Nodup) :
    ∃ t', t.moveItems getKey hash l = some t' ∧ t'.Placed getKey hash ∧ t'.numItems = t.numItems ∧
      t'.items.Perm (l ++ t.items) := by
  induction l generalizing t with
  | nil => exact ⟨t, rfl, h, rfl, .refl _⟩
  | cons x l ih =>
    have hx : x ∉ t.items := by
      intro hmem
      exact (List.nodup_cons.mp hnd).1 (List.mem_append_right l hmem)
    obtain ⟨t₁, happ, h₁, hn₁, hp₁⟩ := h.appendTo_eq hx
    have hmid : (l ++ t₁.items).Perm (x :: (l ++ t.items)) :=
      (hp₁.append_left l).trans List.perm_middle
    obtain ⟨t', hmove, h', hn', hp'⟩ := ih h₁ (hmid.nodup_iff.mpr hnd)
    refine ⟨t', ?_, h', hn'.trans hn₁, hp'.trans hmid⟩
    simp only [moveItems, h.hashValue_eq, Option.bind_some, happ]
    exact hmove

/-- The outer loop of `ReHash` adds the items of the first `k` old buckets. -/
theorem moveBuckets_eq [DecidableEq T] (h : t.Placed getKey hash) (old : List (List T)) {k : ℕ}
    (hk : k ≤ old.length) (hnd : (t.items ++ old.flatten).Nodup) :
    ∃ t', (List.range k).foldlM (fun t i => old[i]?.bind (moveItems getKey hash t)) t = some t' ∧
      t'.Placed getKey hash ∧ t'.numItems = t.numItems ∧
      t'.items.Perm (t.items ++ (old.take k).flatten) := by
  induction k with
  | zero => exact ⟨t, rfl, h, rfl, by simp⟩
  | succ k ih =>
    obtain ⟨t₁, hfold, h₁, hn₁, hp₁⟩ := ih (by omega)
    have hget : old[k]? = some old[k] := List.getElem?_eq_getElem (by omega)
    have htake : (old.take (k + 1)).flatten = (old.take k).flatten ++ old[k] := by
      rw [List.take_succ_eq_append_getElem (by omega), List.flatten_append, List.flatten_singleton]
    have hp : (old[k] ++ t₁.items).Perm (t.items ++ (old.take (k + 1)).flatten) := by
      rw [htake, ← List.append_assoc]
      exact (hp₁.append_left _).trans List.perm_append_comm
    have hsub : ((old.take (k + 1)).flatten).Sublist old.flatten :=
      (List.take_sublist _ _).flatten
    obtain ⟨t', hmove, h', hn', hp'⟩ := h₁.moveItems_eq (l := old[k])
      (hp.nodup_iff.mpr (hnd.sublist (hsub.append_left _)))
    refine ⟨t', ?_, h', hn'.trans hn₁, hp'.trans hp⟩
    rw [List.range_succ, List.foldlM_append, hfold]
    simp only [List.foldlM_cons, List.foldlM_nil, hget, Option.bind_some, hmove,
      Option.bind_eq_bind, Option.pure_def]

end Placed

/-- The rounds of `SanityCheck` count the items of the first `k` buckets. -/
theorem Placed.checkBuckets_eq (h : t.Placed getKey hash) {k : ℕ} (hk : k ≤ t.buckets.length) :
    (List.range k).foldlM (t.checkBucket getKey hash) 0
      = some ((t.buckets.take k).flatten.length : Int) := by
  induction k with
  | zero => rfl
  | succ k ih =>
    have hget : t.buckets[k]? = some t.buckets[k] := List.getElem?_eq_getElem (by omega)
    have hhome : ∀ item ∈ t.buckets[k], t.hashValue hash (getKey item) = some (k : Int) := by
      intro item hitem
      rw [h.hashValue_eq, h.home_eq k _ hget item hitem]
    rw [List.range_succ, List.foldlM_append, ih (by omega),
      List.take_succ_eq_append_getElem (by omega), List.flatten_append, List.flatten_singleton,
      List.length_append]
    simp only [List.foldlM_cons, List.foldlM_nil, checkBucket, hget, Option.bind_some, if_pos hhome,
      Option.bind_eq_bind, Option.pure_def, Int.natCast_add]

theorem Inv.sanityCheck_eq (h : t.Inv getKey hash) : t.sanityCheck getKey hash = true := by
  have hsize : t.numBuckets.toNat = t.buckets.length := by
    rw [h.placed.numBuckets_eq, Int.toNat_natCast]
  rw [sanityCheck, hsize, h.placed.checkBuckets_eq le_rfl, List.take_length, h.numItems_eq]
  simp [items]

/-- **`ReHash`** passes its checks and keeps the items. -/
theorem Inv.reHash_eq [DecidableEq T] (h : t.Inv getKey hash) :
    ∃ t', t.reHash getKey hash = some t' ∧ t'.Inv getKey hash ∧ t'.items.Perm t.items := by
  have hsize : t.numBuckets.toNat = t.buckets.length := by
    rw [h.placed.numBuckets_eq, Int.toNat_natCast]
  have hpos : 0 < t.numBuckets * increaseSizeBy := by
    have := h.placed.pos
    rw [h.placed.numBuckets_eq, increaseSizeBy]
    omega
  have hempty := items_initBuckets t (t.numBuckets * increaseSizeBy)
  have hnew : (t.initBuckets (t.numBuckets * increaseSizeBy)).Placed getKey hash :=
    placed_initBuckets t hpos
  obtain ⟨t', hmove, hplaced, hnum, hperm⟩ :=
    hnew.moveBuckets_eq t.buckets le_rfl (by rw [hempty]; exact h.nodup.of_map _)
  rw [hempty, List.nil_append, List.take_length] at hperm
  have hinv : t'.Inv getKey hash := by
    refine ⟨hplaced, (hperm.map getKey).nodup_iff.mpr h.nodup, ?_⟩
    rw [hnum, hperm.length_eq]
    exact h.numItems_eq
  refine ⟨t', ?_, hinv, hperm⟩
  simp only [reHash, h.sanityCheck_eq, hsize, Bool.true_eq_false, if_false]
  rw [hmove, Option.bind_some, if_pos hinv.sanityCheck_eq]

/-- The table that `Insert` goes on with. -/
theorem Inv.grow_eq [DecidableEq T] (h : t.Inv getKey hash) :
    ∃ t', t.grow getKey hash = some t' ∧ t'.Inv getKey hash ∧ t'.items.Perm t.items := by
  unfold grow
  split
  · exact h.reHash_eq
  · exact ⟨t, rfl, h, .refl _⟩

/-! ### The map -/

variable [DecidableEq Key]

/-- The map that a table stands for. -/
def toMap (getKey : T → Key) (t : HashTable T) : Key → Option T := mapOf getKey t.items

/-- **`Find`** looks up the map. -/
theorem Inv.find_eq (h : t.Inv getKey hash) (key : Key) :
    t.find getKey hash key = some (t.toMap getKey key) := by
  obtain ⟨b, hb, hmem⟩ := h.placed.exists_bucket key
  have hsub : (b.map getKey).Nodup :=
    h.nodup.sublist ((List.sublist_flatten_of_mem (List.mem_of_getElem? hb)).map getKey)
  have hfound : mapOf getKey b key = t.toMap getKey key := by
    ext x
    rw [toMap, mapOf_eq_some_iff hsub, mapOf_eq_some_iff h.nodup, hmem]
    constructor
    · rintro ⟨⟨hx, -⟩, hkey⟩
      exact ⟨hx, hkey⟩
    · rintro ⟨hx, rfl⟩
      exact ⟨⟨hx, rfl⟩, rfl⟩
  simp only [find, h.placed.hashValue_eq, Option.bind_some, findInBucket, Int.toNat_natCast, hb,
    Option.map_some]
  exact congrArg some hfound

theorem Inv.isInTable_eq (h : t.Inv getKey hash) (key : Key) :
    t.isInTable getKey hash key = some (t.toMap getKey key).isSome := by
  rw [isInTable, h.find_eq, Option.map_some]

theorem inv_new : (new : HashTable T).Inv getKey hash ∧ (new : HashTable T).toMap getKey =
    fun _ => none := by
  have hitems : (new : HashTable T).items = [] := items_initBuckets _ _
  refine ⟨⟨placed_initBuckets _ (by decide), by simp [hitems], by rw [hitems]; rfl⟩, ?_⟩
  funext key
  simp [toMap, mapOf, hitems]

variable [DecidableEq T]

/-- **`Insert`** of an item whose key is not in the table passes its checks and adds the item. -/
theorem Inv.insert_eq (h : t.Inv getKey hash) (hx : t.toMap getKey (getKey x) = none) :
    ∃ t', t.insert getKey hash x = some t' ∧ t'.Inv getKey hash ∧
      t'.toMap getKey = update (t.toMap getKey) (getKey x) (some x) := by
  have hkey : getKey x ∉ t.items.map getKey := mapOf_eq_none_iff.mp hx
  obtain ⟨t₁, hgrow, h₁, hp₁⟩ := h.grow_eq
  have hx₁ : x ∉ t₁.items := fun hm => hkey (List.mem_map_of_mem (hp₁.mem_iff.mp hm))
  obtain ⟨t₂, happ, h₂, hn₂, hp₂⟩ := h₁.placed.appendTo_eq hx₁
  have hperm : t₂.items.Perm (x :: t.items) := hp₂.trans (hp₁.cons x)
  have hnd : ((x :: t.items).map getKey).Nodup := List.nodup_cons.mpr ⟨hkey, h.nodup⟩
  have hinv : Inv getKey hash { t₂ with numItems := t₂.numItems + 1 } := by
    refine ⟨⟨h₂.numBuckets_eq, h₂.pos, h₂.home_eq⟩, (hperm.map getKey).nodup_iff.mpr hnd, ?_⟩
    show t₂.numItems + 1 = (t₂.items.length : Int)
    rw [hn₂, h₁.numItems_eq, hp₂.length_eq, List.length_cons, Int.natCast_succ]
  have hmap : toMap getKey { t₂ with numItems := t₂.numItems + 1 }
      = update (t.toMap getKey) (getKey x) (some x) :=
    (mapOf_perm hperm ((hperm.map getKey).nodup_iff.mpr hnd)).trans mapOf_cons
  refine ⟨_, ?_, hinv, hmap⟩
  -- The two assertions are about the map before and after.
  simp only [insert, h.isInTable_eq, hx, Option.isSome_none, Option.bind_some, Bool.false_eq_true,
    if_false, hgrow, h₁.placed.hashValue_eq, happ, hinv.isInTable_eq, hmap, update_self,
    Option.isSome_some, if_true]

/-- **`Remove`** of a key in the table passes its checks, returns the item and takes it out. -/
theorem Inv.remove_eq (h : t.Inv getKey hash) (hx : t.toMap getKey key = some x) :
    ∃ t', t.remove getKey hash key = some (x, t') ∧ t'.Inv getKey hash ∧
      t'.toMap getKey = update (t.toMap getKey) key none := by
  obtain ⟨hxt, rfl⟩ := (mapOf_eq_some_iff h.nodup).mp hx
  obtain ⟨b, hb, hmem⟩ := h.placed.exists_bucket (getKey x)
  have hxb : x ∈ b := (hmem x).mpr ⟨hxt, rfl⟩
  have hbsub : b.Sublist t.items := List.sublist_flatten_of_mem (List.mem_of_getElem? hb)
  have hbnd : b.Nodup := (h.nodup.of_map _).sublist hbsub
  obtain ⟨hold, hnew⟩ := Placed.items_set hb (b.erase x)
  -- What is left in the bucket, with the item that is taken out, is the bucket.
  have hperm : t.items.Perm (x :: (t.buckets.set (t.home hash (getKey x)) (b.erase x)).flatten) :=
    hold.trans (((List.perm_cons_erase hxb).append_right _).trans (hnew.symm.cons x))
  have hnd := (hperm.map getKey).nodup_iff.mp h.nodup
  have hinv : Inv getKey hash
      ⟨t.buckets.set (t.home hash (getKey x)) (b.erase x), t.numBuckets, t.numItems - 1⟩ := by
    refine ⟨h.placed.set (fun y hy => ((hmem y).mp (List.mem_of_mem_erase hy)).2) _,
      (List.nodup_cons.mp hnd).2, ?_⟩
    have hlen := hperm.length_eq
    rw [List.length_cons] at hlen
    show t.numItems - 1 = ((t.buckets.set _ _).flatten.length : Int)
    rw [h.numItems_eq, hlen]
    omega
  have hmap : toMap getKey
      ⟨t.buckets.set (t.home hash (getKey x)) (b.erase x), t.numBuckets, t.numItems - 1⟩
      = update (t.toMap getKey) (getKey x) none := by
    rw [toMap, toMap, mapOf_perm hperm h.nodup, update_mapOf_cons (List.nodup_cons.mp hnd).1]
    rfl
  refine ⟨_, ?_, hinv, hmap⟩
  have hfind := h.find_eq (getKey x)
  simp only [find, h.placed.hashValue_eq, Option.bind_some, hx] at hfind
  simp only [remove, h.placed.hashValue_eq, Option.bind_some, hfind, Int.toNat_natCast, hb,
    remove_of_mem hbnd hxb, hinv.isInTable_eq, hmap, update_self, Option.isSome_none,
    Bool.false_eq_true, if_false]

end HashTable

/-! ### Any sequence of operations -/

/-- A table, and what has been inserted and not removed since. -/
structure HashState (Key T : Type*) where
  table : HashTable T
  contents : Key → Option T

/-- What can happen next. -/
inductive HashAction (Key T : Type*) where
  | insert (item : T)
  | remove (key : Key)

/-- One operation, on an item whose key is absent or on a key that is present. -/
def HashState.next [DecidableEq Key] [DecidableEq T] (getKey : T → Key) (hash : Key → UInt32)
    (s : HashState Key T) : HashAction Key T → Outcome (HashState Key T)
  | .insert item =>
    match s.contents (getKey item), s.table.insert getKey hash item with
    | some _, _ => .disabled
    | none, none => .fault
    | none, some table =>
      .next ⟨table, update s.contents (getKey item) (some item)⟩
  | .remove key =>
    match s.contents key, s.table.remove getKey hash key with
    | none, _ => .disabled
    | some _, none => .fault
    | some _, some (_, table) => .next ⟨table, update s.contents key none⟩

/-- Any sequence of operations from the empty table. -/
def hashSystem [DecidableEq Key] [DecidableEq T] (getKey : T → Key) (hash : Key → UInt32) :
    LTS (HashState Key T) (HashAction Key T) where
  init := fun s => s = ⟨.new, fun _ => none⟩
  next := HashState.next getKey hash

variable [DecidableEq Key] [DecidableEq T] {getKey : T → Key} {hash : Key → UInt32}

/-- The table is a legal one for the map `m`, and every operation does to it what it should do to
the map. -/
structure HashTable.Refines (getKey : T → Key) (hash : Key → UInt32) (t : HashTable T)
    (m : Key → Option T) : Prop where
  bucket_eq : ∀ (i : ℕ) l, t.buckets[i]? = some l → ∀ x ∈ l,
    (i : Int) = (hash (getKey x)).toNat % t.numBuckets
  nodup_keys : (t.items.map getKey).Nodup
  numItems_eq : t.numItems = (t.buckets.map List.length).sum
  sanityCheck : t.sanityCheck getKey hash = true
  reHash : ∃ t', t.reHash getKey hash = some t' ∧ t'.items.Perm t.items
  find : ∀ key, t.find getKey hash key = some (m key)
  insert : ∀ x, m (getKey x) = none → ∃ t', t.insert getKey hash x = some t'
  remove : ∀ key x, m key = some x → ∃ t', t.remove getKey hash key = some (x, t')

theorem HashTable.Inv.refines {t : HashTable T} (h : t.Inv getKey hash) :
    t.Refines getKey hash (t.toMap getKey) where
  bucket_eq := by
    intro i l hl x hx
    rw [h.placed.numBuckets_eq, ← h.placed.home_eq i l hl x hx, HashTable.home, Int.natCast_mod]
  nodup_keys := h.nodup
  numItems_eq := by rw [h.numItems_eq, HashTable.items, List.length_flatten]
  sanityCheck := h.sanityCheck_eq
  reHash := by
    obtain ⟨t', heq, -, hp⟩ := h.reHash_eq
    exact ⟨t', heq, hp⟩
  find := h.find_eq
  insert := by
    intro x hx
    obtain ⟨t', heq, -⟩ := h.insert_eq hx
    exact ⟨t', heq⟩
  remove := by
    intro key x hx
    obtain ⟨t', heq, -⟩ := h.remove_eq hx
    exact ⟨t', heq⟩

/-- Every operation keeps the table a table for the contents, and trips no check. -/
theorem HashState.next_meets {s : HashState Key T} (h : s.table.Inv getKey hash)
    (hmap : s.table.toMap getKey = s.contents) (a : HashAction Key T) :
    (s.next getKey hash a).Meets fun s' =>
      s'.table.Inv getKey hash ∧ s'.table.toMap getKey = s'.contents := by
  cases a with
  | insert item =>
    cases hc : s.contents (getKey item) with
    | some y =>
      simp only [HashState.next, hc]
      trivial
    | none =>
      obtain ⟨t', heq, h', hmap'⟩ := h.insert_eq (by rw [hmap, hc])
      simp only [HashState.next, hc, heq, Outcome.meets_next]
      exact ⟨h', by rw [hmap', hmap]⟩
  | remove key =>
    cases hc : s.contents key with
    | none =>
      simp only [HashState.next, hc]
      trivial
    | some x =>
      obtain ⟨t', heq, h', hmap'⟩ := h.remove_eq (by rw [hmap, hc])
      simp only [HashState.next, hc, heq, Outcome.meets_next]
      exact ⟨h', by rw [hmap', hmap]⟩

/-- **The hash table refines a finite map.** Whatever the hash function and the key function and
however many items have been inserted and removed, the table is legal, it stands for the items
that were inserted and not removed since, and no runtime check fails. -/
theorem hash_table_refines_map (s : HashState Key T) (h : (hashSystem getKey hash).Reachable s) :
    s.table.Refines getKey hash s.contents ∧ ∀ a, s.next getKey hash a ≠ .fault := by
  have hsafe := h.safe
    (I := fun s => s.table.Inv getKey hash ∧ s.table.toMap getKey = s.contents)
    (fun s hs => by subst hs; exact HashTable.inv_new)
    (fun s a hs => HashState.next_meets hs.1 hs.2 a)
  obtain ⟨⟨hinv, hmap⟩, hfault⟩ := hsafe
  exact ⟨hmap ▸ hinv.refines, hfault⟩

/-- Thirteen items are inserted, the last one into a table that has been rehashed, and one of them
is removed again. -/
theorem hash_table_refines_map_rehash : ∃ s : HashState ℕ ℕ, s.table.numBuckets = 16 ∧
    s.table.numItems = 12 ∧ s.table.Refines id UInt32.ofNat s.contents := by
  obtain ⟨s, hs, hbuckets, hitems⟩ := (hashSystem (id : ℕ → ℕ) UInt32.ofNat).reaches rfl
    ((List.range 13).map .insert ++ [.remove 4])
    (fun s => s.table.numBuckets = 16 ∧ s.table.numItems = 12) (by decide +kernel)
  exact ⟨s, hbuckets, hitems, (hash_table_refines_map s hs).1⟩

end Nachos.Lib
