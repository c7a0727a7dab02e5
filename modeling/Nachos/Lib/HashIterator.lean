import Nachos.Lib.HashTable
import Nachos.Lib.LinkedList

namespace Nachos.Lib

open Base

/-!
# Lib — the `HashIterator` of `lib/hash.cc`

An iterator over a hash table is in a bucket and has an iterator over the list of that bucket, or it
is behind the last bucket and has none. The lists are in the heap, element by element. What is done
through a null `bucketIter`, and a bucket looked up outside the table, gives `none`.

* `HeapTable.Represents h t` — the lists of `h` have the items of the buckets of `t`;
* `HashIterator.Ahead h t i xs` — what the iterator will still come to are the items `xs`;
* `hash_iteration_complete` — the loop over an iterator yields each item once, and ends.
-/

variable {T : Type}

/-! ### Iterators over a list -/

/-- `ListIterator`: where it is in the list. -/
structure ListIterator where
  current : Option Addr

namespace ListIterator

/-- `ListIterator::ListIterator`. -/
def new (list : ListHead) : ListIterator := ⟨list.first⟩

/-- `ListIterator::IsDone`. -/
def isDone (i : ListIterator) : Bool := i.current = none

/-- `ListIterator::Item`. -/
def item (heap : Heap Addr T) (i : ListIterator) : Option T := do
  assert !i.isDone
  let element ← heap.deref i.current
  some element.item

/-- `ListIterator::Next`. -/
def next (heap : Heap Addr T) (i : ListIterator) : Option ListIterator := do
  let element ← heap.deref i.current
  some ⟨element.next⟩

end ListIterator

/-! ### Iterators over a table -/

/-- What an iterator reads of a `HashTable`: the array of buckets, which are `List` objects, and the
heap with their elements. -/
structure HeapTable (T : Type) where
  heap : Heap Addr T
  buckets : List ListHead
  numBuckets : Int

/-- `buckets[bucket]`. -/
def HeapTable.bucketAt (h : HeapTable T) (bucket : Int) : Option ListHead :=
  if 0 ≤ bucket ∧ bucket < h.numBuckets then h.buckets[bucket.toNat]? else none

/-- The loop of `FindNextFullBucket`, with `k` buckets to go. -/
def HeapTable.fullBucketFrom (h : HeapTable T) : ℕ → Int → Option Int
  | 0, bucket => some bucket
  | k + 1, bucket => do
    let list ← h.bucketAt bucket
    if !list.isEmpty then some bucket else fullBucketFrom h k (bucket + 1)

/-- `HashTable::FindNextFullBucket`: the loop goes on while `bucket < numBuckets`. -/
def HeapTable.findNextFullBucket (h : HeapTable T) (bucket : Int) : Option Int :=
  h.fullBucketFrom (h.numBuckets - bucket).toNat bucket

/-- `HashIterator`: the bucket it is in, and where it is in that bucket. -/
structure HashIterator where
  bucket : Int
  bucketIter : Option ListIterator

namespace HashIterator

/-- Go to the next full bucket, the end of the constructor and of `Next`. -/
def enter (h : HeapTable T) (bucket : Int) : Option HashIterator := do
  let bucket ← h.findNextFullBucket bucket
  if bucket < h.numBuckets then
    let list ← h.bucketAt bucket
    some ⟨bucket, some (.new list)⟩
  else some ⟨bucket, none⟩

/-- `HashIterator::HashIterator`. -/
def new (h : HeapTable T) : Option HashIterator := enter h 0

/-- `HashIterator::IsDone`. -/
def isDone (h : HeapTable T) (i : HashIterator) : Bool := i.bucket = h.numBuckets

/-- `HashIterator::Item`. -/
def item (h : HeapTable T) (i : HashIterator) : Option T := do
  assert !i.isDone h
  let bucketIter ← i.bucketIter
  bucketIter.item h.heap

/-- `HashIterator::Next`. -/
def next (h : HeapTable T) (i : HashIterator) : Option HashIterator := do
  let bucketIter ← i.bucketIter
  let bucketIter ← bucketIter.next h.heap
  if bucketIter.isDone then enter h (i.bucket + 1) else some ⟨i.bucket, some bucketIter⟩

/-- `for (; !iter->IsDone(); iter->Next())` with the `Item` of each round, for at most so many
rounds. -/
def iterate (h : HeapTable T) (rounds : ℕ) (i : HashIterator) : Option (List T) :=
  if i.isDone h then some []
  else
    match rounds with
    | 0 => none
    | rounds + 1 => do
      let item ← i.item h
      let i ← i.next h
      let items ← iterate h rounds i
      some (item :: items)

end HashIterator

/-! ### What is ahead of an iterator -/

/-- The lists of the buckets have the items that the table has. -/
structure HeapTable.Represents (h : HeapTable T) (t : HashTable T) : Prop where
  numBuckets_eq : h.numBuckets = t.numBuckets
  buckets : h.buckets.Forall₂ (fun l items =>
    ∃ rest c, LinkedList.Rep rest ⟨l, h.heap⟩ c ∧ c.map Prod.snd = items) t.buckets

variable {h : HeapTable T} {t : HashTable T} {k : ℕ} {xs : List T} {x : T} {i : HashIterator}

/-- A bucket of the table is a list with its items. -/
theorem HeapTable.Represents.bucketAt_eq (hrep : h.Represents t)
    (hsize : t.numBuckets = t.buckets.length) (hk : k < t.buckets.length) :
    ∃ l rest c, h.bucketAt k = some l ∧ LinkedList.Rep rest ⟨l, h.heap⟩ c ∧
      c.map Prod.snd = t.buckets[k] := by
  have hlen := hrep.buckets.length_eq
  have hk' : k < h.buckets.length := by omega
  obtain ⟨rest, c, hc, hitems⟩ := (List.forall₂_iff_get.mp hrep.buckets).2 k hk' hk
  refine ⟨h.buckets[k], rest, c, ?_, hc, hitems⟩
  rw [bucketAt, if_pos (by rw [hrep.numBuckets_eq, hsize]; omega), Int.toNat_natCast,
    List.getElem?_eq_getElem hk']

/-- The items `xs` are ahead of the iterator: the rest of its bucket, and the buckets behind. -/
inductive HashIterator.Ahead (h : HeapTable T) (t : HashTable T) :
    HashIterator → List T → Prop where
  | done : Ahead h t ⟨h.numBuckets, none⟩ []
  | within {k : ℕ} {c : List (Addr × T)} (hk : k < t.buckets.length) (hne : c ≠ [])
      (hc : Linked h.heap c none) :
      Ahead h t ⟨k, some ⟨entry c none⟩⟩ (c.map Prod.snd ++ (t.buckets.drop (k + 1)).flatten)

namespace HeapTable.Represents

variable (hrep : h.Represents t) (hsize : t.numBuckets = t.buckets.length)

include hrep hsize

/-- `FindNextFullBucket` goes by empty buckets only. -/
theorem findNextFullBucket_eq (hk : k ≤ t.buckets.length) :
    ∃ m : ℕ, h.findNextFullBucket k = some (m : Int) ∧ m ≤ t.buckets.length ∧
      (t.buckets.drop m).flatten = (t.buckets.drop k).flatten ∧
      ∀ hm : m < t.buckets.length, t.buckets[m] ≠ [] := by
  have hfuel : (h.numBuckets - k).toNat = t.buckets.length - k := by
    rw [hrep.numBuckets_eq, hsize]
    omega
  rw [findNextFullBucket, hfuel]
  -- By induction on the number of buckets to go.
  obtain ⟨d, hd⟩ : ∃ d, t.buckets.length - k = d := ⟨_, rfl⟩
  rw [hd]
  induction d generalizing k with
  | zero => exact ⟨k, rfl, hk, rfl, fun hm => by omega⟩
  | succ d ih =>
    have hlt : k < t.buckets.length := by omega
    obtain ⟨l, rest, c, hl, hc, hitems⟩ := hrep.bucketAt_eq hsize hlt
    have hempty : l.isEmpty = c.isEmpty := hc.isEmpty_eq
    simp only [fullBucketFrom, hl, Option.bind_eq_bind, Option.bind_some, hempty]
    cases c with
    | nil =>
      obtain ⟨m, hm, hle, hflat, hfull⟩ := ih (k := k + 1) (by omega) (by omega) (by omega)
      refine ⟨m, hm, hle, ?_, hfull⟩
      rw [hflat, List.drop_eq_getElem_cons hlt, ← hitems]
      rfl
    | cons b c => exact ⟨k, rfl, hk, rfl, fun hm => by rw [← hitems]; exact List.cons_ne_nil _ _⟩

/-- What is ahead of an iterator that goes to the next full bucket. -/
theorem enter_ahead (hk : k ≤ t.buckets.length) :
    ∃ i, HashIterator.enter h k = some i ∧ i.Ahead h t (t.buckets.drop k).flatten := by
  obtain ⟨m, hm, hle, hflat, hfull⟩ := hrep.findNextFullBucket_eq hsize hk
  simp only [HashIterator.enter, hm, Option.bind_eq_bind, Option.bind_some]
  rw [← hflat]
  by_cases hlt : m < t.buckets.length
  · obtain ⟨l, rest, c, hl, hc, hitems⟩ := hrep.bucketAt_eq hsize hlt
    have hne : c ≠ [] := by
      rintro rfl
      exact hfull hlt hitems.symm
    have hfirst : l.first = entry c none := hc.first_eq
    rw [if_pos (by rw [hrep.numBuckets_eq, hsize]; omega), hl, List.drop_eq_getElem_cons hlt,
      List.flatten_cons, ← hitems]
    refine ⟨_, rfl, ?_⟩
    rw [ListIterator.new, hfirst]
    exact .within hlt hne hc.chain.linked
  · have hend : (m : Int) = h.numBuckets := by
      rw [hrep.numBuckets_eq, hsize]
      omega
    rw [if_neg (by omega), List.drop_of_length_le (by omega), hend]
    exact ⟨_, rfl, .done⟩

/-- One round: the iterator yields the first of the items ahead and goes on to the others. -/
theorem next_ahead (hi : i.Ahead h t (x :: xs)) :
    i.isDone h = false ∧ i.item h = some x ∧ ∃ i', i.next h = some i' ∧ i'.Ahead h t xs := by
  generalize hys : x :: xs = ys at hi
  cases hi with
  | done => cases hys
  | @within k c hk hne hc =>
    obtain ⟨⟨a, y⟩, c, rfl⟩ := List.exists_cons_of_ne_nil hne
    rw [List.map_cons, List.cons_append] at hys
    obtain ⟨rfl, rfl⟩ := List.cons.inj hys
    obtain ⟨ha, hc⟩ := hc
    have hdone : ∀ iter, HashIterator.isDone h ⟨k, iter⟩ = false := by
      intro iter
      rw [HashIterator.isDone, decide_eq_false_iff_not, hrep.numBuckets_eq, hsize]
      show (k : Int) ≠ _
      omega
    refine ⟨hdone _, ?_, ?_⟩
    · simp [HashIterator.item, hdone, ListIterator.item, ListIterator.isDone, ha]
    · simp only [HashIterator.next, ListIterator.next, entry_cons, Heap.deref_some, ha,
        Option.bind_eq_bind, Option.bind_some, ListIterator.isDone, decide_eq_true_eq,
        entry_eq_none]
      by_cases hnil : c = []
      · -- The bucket is at its end.
        rw [if_pos hnil, hnil]
        exact hrep.enter_ahead hsize (k := k + 1) (by omega)
      · rw [if_neg hnil]
        exact ⟨_, rfl, .within hk hnil hc⟩

/-- The loop yields the items that are ahead. -/
theorem iterate_eq (hi : i.Ahead h t xs) (rounds : ℕ) (hrounds : xs.length ≤ rounds) :
    i.iterate h rounds = some xs := by
  induction xs generalizing i rounds with
  | nil =>
    generalize hys : ([] : List T) = ys at hi
    cases hi with
    | done =>
      unfold HashIterator.iterate
      exact if_pos (decide_eq_true rfl)
    | within hk hne hc =>
      obtain ⟨b, c, rfl⟩ := List.exists_cons_of_ne_nil hne
      cases hys
  | cons x xs ih =>
    obtain _ | rounds := rounds
    · simp at hrounds
    obtain ⟨hdone, hitem, i', hnext, hi'⟩ := hrep.next_ahead hsize hi
    have hrest := ih hi' rounds (by simpa using hrounds)
    rw [HashIterator.iterate, hdone]
    simp [hitem, hnext, hrest]

end HeapTable.Represents

/-- **Hash iteration is complete.** For every legal table, however its items are distributed over
the buckets, the loop over an iterator ends, follows no null pointer, looks up no bucket outside the
table, and yields every item of the table exactly once. -/
theorem hash_iteration_complete {Key : Type*} [DecidableEq T] {getKey : T → Key}
    {hash : Key → UInt32} (hrep : h.Represents t) (hinv : t.Inv getKey hash) :
    ∃ i yielded, HashIterator.new h = some i ∧
      (∀ rounds, t.items.length ≤ rounds → i.iterate h rounds = some yielded) ∧
      ∀ x, yielded.count x = if x ∈ t.items then 1 else 0 := by
  have hsize := hinv.placed.numBuckets_eq
  obtain ⟨i, hi, hahead⟩ := hrep.enter_ahead hsize (k := 0) (Nat.zero_le _)
  refine ⟨i, t.items, hi, hrep.iterate_eq hsize hahead, fun x => ?_⟩
  split
  · exact List.count_eq_one_of_mem (hinv.nodup.of_map _) ‹_›
  · exact List.count_eq_zero_of_not_mem ‹_›

/-- Two items in the same bucket, with an empty one before it and two behind. -/
theorem hash_iteration_complete_sparse : ∃ (h : HeapTable ℕ) (i : HashIterator) (yielded : List ℕ),
    h.buckets.map ListHead.numInList = [0, 2, 0, 0] ∧ HashIterator.new h = some i ∧
    i.iterate h 2 = some yielded ∧ yielded.count 1 = 1 ∧ yielded.count 5 = 1 := by
  obtain ⟨a, ha⟩ : ∃ a : Addr, a = ⟨8, by decide⟩ := ⟨_, rfl⟩
  obtain ⟨b, hb⟩ : ∃ b : Addr, b = ⟨9, by decide⟩ := ⟨_, rfl⟩
  have hab : a ≠ b := by
    rw [ha, hb]
    decide
  -- The elements of the list in the second bucket, and the table.
  have hchain := ((Chain.nil (fun _ : Addr => (none : Option (Cell Addr ℕ)))).linkFront (a := b) rfl
    5).linkFront (a := a) (Function.update_of_ne hab _ _) 1
  have hrep : HeapTable.Represents ⟨_, [.new, ⟨some a, some b, 2⟩, .new, .new], 4⟩
      ⟨[[], [1, 5], [], []], 4, 2⟩ :=
    ⟨rfl, .cons ⟨_, _, .new _, rfl⟩ (.cons ⟨_, _, ⟨hchain, rfl, rfl, rfl⟩, rfl⟩
      (.cons ⟨_, _, .new _, rfl⟩ (.cons ⟨_, _, .new _, rfl⟩ .nil)))⟩
  have hnew : (HashTable.new : HashTable ℕ).Inv id UInt32.ofNat := HashTable.inv_new.1
  obtain ⟨t₁, ht₁, hinv₁, hmap₁⟩ := hnew.insert_eq (x := 1) rfl
  obtain ⟨t, ht, hinv, -⟩ := hinv₁.insert_eq (x := 5) (by rw [hmap₁]; rfl)
  obtain rfl : ⟨[[], [1], [], []], 4, 1⟩ = t₁ := Option.some.inj (Eq.trans (by decide +kernel) ht₁)
  obtain rfl : ⟨[[], [1, 5], [], []], 4, 2⟩ = t := Option.some.inj (Eq.trans (by decide +kernel) ht)
  obtain ⟨i, yielded, hi, hall, hcount⟩ := hash_iteration_complete hrep hinv
  exact ⟨_, i, yielded, rfl, hi, hall 2 (by decide), hcount 1, hcount 5⟩

end Nachos.Lib
