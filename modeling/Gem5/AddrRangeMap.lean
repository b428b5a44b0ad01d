/-
# The address range map

Model of `AddrRangeMap` (base/addr_range_map.hh): a `std::map` from address
ranges to values, with a list of the iterators used most recently.

The tree is the list of its entries in the order of `AddrRange::operator<`.
Every entry gets an identity of its own when it is inserted; an iterator is such
an identity, or `end()`.

An operation returns `none` where the source panics (in a test of a range) and
where it uses an iterator that is not valid: a stale one in the cache, or an
argument of `erase` that is not an entry of the tree.
-/
import Gem5.AddrRange
import Gem5.Run

/-- A node of the `std::map`. -/
structure MapEntry (V : Type) where
  id : ℕ
  range : AddrRange
  value : V
  deriving DecidableEq

/-- An iterator of the tree; `none` is `end()`. -/
abbrev Iterator := Option ℕ

structure AddrRangeMap (V : Type) where
  tree : List (MapEntry V)
  /-- The iterators used most recently, the latest one first. -/
  cache : List ℕ
  /-- The identity of the next entry. -/
  nextId : ℕ
  deriving DecidableEq

namespace AddrRangeMap

variable {V : Type} (maxCacheSize : BitVec 32)

def empty : AddrRangeMap V := ⟨[], [], 0⟩

variable (s : AddrRangeMap V)

/-- The identities of the entries in the tree. -/
def ids : List ℕ := s.tree.map MapEntry.id

variable (tree : List (MapEntry V))

/-- The entry an iterator points to. -/
def deref (it : ℕ) : Option (MapEntry V) :=
  tree.find? fun e => e.id = it

/-! ## Finding an entry -/

/-- `addNewEntryToCache`; the size of the list is compared with the template
argument converted to an unsigned 64-bit integer. -/
def addNewEntryToCache (cache : List ℕ) (it : ℕ) : List ℕ :=
  if maxCacheSize ≠ 0 then
    if (maxCacheSize.signExtend 64).toNat ≤ cache.length then
      -- overwrite the last element and move it to the front
      if 1 < maxCacheSize.toInt then it :: cache.dropLast else cache.dropLast ++ [it]
    else it :: cache
  else cache

/-- The loop over the cache. -/
def scanCache (tree : List (MapEntry V)) (cond : AddrRange → Option Bool) :
    List ℕ → Option (Option ℕ)
  | [] => some none
  | c :: cs => do
    let e ← deref tree c
    if ← cond e.range then some (some c) else scanCache tree cond cs

/-- `next != begin() && (--next)->first.mergesWith(i->first)`, where the rest are
the entries before `i`, the nearest one first. -/
def keepLooking (i : MapEntry V) : List (MapEntry V) → Bool
  | [] => false
  | next :: _ => next.range.mergesWith i.range

/-- The loop towards `begin()`, over the entries in reverse order. -/
def searchBack (cond : AddrRange → Option Bool) : List (MapEntry V) → Option (Option ℕ)
  | [] => some none
  | i :: rest => do
    if ← cond i.range then some (some i.id)
    else if keepLooking i rest then searchBack cond rest else some none

/-- The entry at `upper_bound`, if there is one and it satisfies the condition. -/
def searchNext (cond : AddrRange → Option Bool) : List (MapEntry V) → Option (Option ℕ)
  | [] => some none
  | next :: _ => do
    if ← cond next.range then some (some next.id) else some none

variable (r : AddrRange)

/-- The entries up to `upper_bound(r)` and those from there on. -/
def upperBound : List (MapEntry V) × List (MapEntry V) :=
  (tree.takeWhile fun e => !r.lt e.range, tree.dropWhile fun e => !r.lt e.range)

/-- The part of `find` that searches the tree. -/
def searchTree (cond : AddrRange → Option Bool) : Option (Option ℕ) := do
  match ← searchNext cond (upperBound tree r).2 with
  | some it => some (some it)
  | none => searchBack cond (upperBound tree r).1.reverse

def find (cond : AddrRange → Option Bool) : Option (Iterator × AddrRangeMap V) := do
  match ← scanCache s.tree cond s.cache with
  | some c =>
    -- promote it to the front of the cache
    some (some c, { s with cache := c :: s.cache.erase c })
  | none =>
    match ← searchTree s.tree r cond with
    | some it => some (some it, { s with cache := addNewEntryToCache maxCacheSize s.cache it })
    | none => some (none, s)

/-- `contains(r)`. -/
def contains : Option (Iterator × AddrRangeMap V) :=
  s.find maxCacheSize r fun r1 => r.isSubset r1

/-- `intersects(r)`. -/
def intersects : Option (Iterator × AddrRangeMap V) :=
  s.find maxCacheSize r fun r1 => r.intersects r1

/-! ## Changing the map -/

/-- A new entry between two parts of the tree. -/
def insertAt (before after : List (MapEntry V)) (r : AddrRange) (d : V) :
    Iterator × AddrRangeMap V :=
  (some s.nextId, { s with
    tree := before ++ ⟨s.nextId, r, d⟩ :: after
    nextId := s.nextId + 1 })

/-- `tree.insert`: an entry with an equivalent key stays. -/
def insertTree (d : V) : Iterator × AddrRangeMap V :=
  let before := s.tree.takeWhile fun e => e.range.lt r
  let after := s.tree.dropWhile fun e => e.range.lt r
  match after with
  | [] => s.insertAt before after r d
  | e :: _ => if r.lt e.range then s.insertAt before after r d else (some e.id, s)

def insert (d : V) : Option (Iterator × AddrRangeMap V) := do
  let (it, s) ← s.intersects maxCacheSize r
  if it ≠ none then some (none, s) else some (s.insertTree r d)

/-- `erase(p)`. -/
def erase (p : Iterator) : Option (AddrRangeMap V) := do
  let it ← p
  if it ∈ s.ids then
    some { s with
      cache := s.cache.filter fun c => c ≠ it
      tree := s.tree.filter fun e => e.id ≠ it }
  else none

/-- The iterators of the range `[p, q)`. -/
def between (p q : Iterator) : Option (List ℕ) :=
  match p with
  | none => if q = none then some [] else none
  | some it =>
    if it ∈ s.ids then
      let rest := s.ids.dropWhile fun c => c ≠ it
      match q with
      | none => some rest
      | some it' => if it' ∈ rest then some (rest.takeWhile fun c => c ≠ it') else none
    else none

/-- `erase(p, q)`: the loop removes `p` from the cache once for every iterator
of the range. -/
def eraseRange (p q : Iterator) : Option (AddrRangeMap V) := do
  let its ← s.between p q
  some { s with
    cache := its.foldl (fun cache _ => cache.filter fun c => some c ≠ p) s.cache
    tree := s.tree.filter fun e => e.id ∉ its }

def clear : AddrRangeMap V := { s with tree := [], cache := [] }

/-! ## Steps -/

inductive Op (V : Type)
  | insert (r : AddrRange) (d : V)
  | erase (p : Iterator)
  | eraseRange (p q : Iterator)
  | clear
  | contains (r : AddrRange)
  | intersects (r : AddrRange)
  deriving DecidableEq

def step : Op V → Option (AddrRangeMap V)
  | .insert r d => (s.insert maxCacheSize r d).map Prod.snd
  | .erase p => s.erase p
  | .eraseRange p q => s.eraseRange p q
  | .clear => some s.clear
  | .contains r => (s.contains maxCacheSize r).map Prod.snd
  | .intersects r => (s.intersects maxCacheSize r).map Prod.snd

end AddrRangeMap
