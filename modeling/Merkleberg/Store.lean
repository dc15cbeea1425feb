import Merkleberg.Merge

open machine machine.Outcome

namespace merkleberg

/-- `MMRStoreReadOps`. -/
structure MMRStoreReadOps (Store Elem Err : Type) where
  get_elem : Store → Nat → Outcome Err (Option Elem)
  get_elems : Store → List Nat → Outcome Err (List (Option Elem))

/-- `MMRStoreWriteOps`. The store comes back beside the result, because a
    failing `append` may have changed it as well. -/
structure MMRStoreWriteOps (Store Elem Err : Type) where
  append : Store → Nat → List Elem → Outcome Empty (Except Err Unit × Store)

/-- Elements not committed yet, oldest entry first, over a store. -/
structure MMRBatch (Elem Store : Type) where
  memory_batch : List (Nat × List Elem)
  store : Store

namespace MMRBatch

variable {Elem Store Err : Type}

def new (store : Store) : MMRBatch Elem Store := { memory_batch := [], store }

def append (self : MMRBatch Elem Store) (pos : Nat) (elems : List Elem) : MMRBatch Elem Store :=
  { self with memory_batch := self.memory_batch ++ [(pos, elems)] }

/-- The loop of `get_elem` over the entries, newest first. It breaks to the
    store at the first entry that ends at or below the position. -/
def get_elem.scan (b : Profile) (R : MMRStoreReadOps Store Elem Err) (store : Store) (pos : Nat) :
    List (Nat × List Elem) → Outcome Err (Option Elem)
  | [] => R.get_elem store pos
  | (start_pos, elems) :: rest =>
    if pos < start_pos then get_elem.scan b R store pos rest
    else do
      let stop ← U64.add b start_pos elems.length
      if pos < stop then do
        let offset ← U64.sub b pos start_pos
        ok elems[offset]?
      else R.get_elem store pos

def get_elem (b : Profile) (R : MMRStoreReadOps Store Elem Err) (self : MMRBatch Elem Store)
    (pos : Nat) : Outcome Err (Option Elem) :=
  get_elem.scan b R self.store pos self.memory_batch.reverse

/-- The search of `get_elems` for one position: unlike `get_elem`, it looks at
    every entry, newest first, before it leaves the position to the store. -/
def get_elems.find (b : Profile) (pos : Nat) :
    List (Nat × List Elem) → Outcome Err (Option Elem)
  | [] => ok none
  | (start_pos, elems) :: rest =>
    if pos ≥ start_pos then do
      let stop ← U64.add b start_pos elems.length
      if pos < stop then do
        let offset ← U64.sub b pos start_pos
        let elem ← expect elems[offset]?
        ok (some elem)
      else get_elems.find b pos rest
    else get_elems.find b pos rest

/-- Put the fetched elements, in order, at the places the batch left open. -/
def get_elems.fill : List (Option Elem) → List (Option Elem) → List (Option Elem)
  | [], _ => []
  | some elem :: results, fetched => some elem :: get_elems.fill results fetched
  | none :: results, [] => none :: get_elems.fill results []
  | none :: results, elem :: fetched => elem :: get_elems.fill results fetched

def get_elems (b : Profile) (R : MMRStoreReadOps Store Elem Err) (self : MMRBatch Elem Store)
    (positions : List Nat) : Outcome Err (List (Option Elem)) := do
  let results ← positions.mapM fun pos => get_elems.find b pos self.memory_batch.reverse
  let missing_positions := ((positions.zip results).filter (·.2.isNone)).map (·.1)
  if missing_positions ≠ [] then do
    let fetched ← R.get_elems self.store missing_positions
    ok (get_elems.fill results fetched)
  else ok results

/-- The loop of `commit`. An error leaves it early, and dropping the drain
    iterator then discards the entries that were not reached. -/
def commit.drain (W : MMRStoreWriteOps Store Elem Err) (store : Store) :
    List (Nat × List Elem) → Outcome Empty (Except Err Unit × Store)
  | [] => ok (.ok (), store)
  | (pos, elems) :: rest => do
    let (result, store) ← W.append store pos elems
    match result with
    | .ok () => commit.drain W store rest
    | .error error => ok (.error error, store)

/-- `commit` takes `&mut self`, so the batch comes back beside the result. The
    drained batch is empty whether the loop ran to its end or not. -/
def commit (W : MMRStoreWriteOps Store Elem Err) (self : MMRBatch Elem Store) :
    Outcome Empty (Except Err Unit × MMRBatch Elem Store) := do
  let (result, store) ← commit.drain W self.store self.memory_batch
  ok (result, { memory_batch := [], store })

end MMRBatch

/-- The map behind `MemStore`. -/
structure MemStore (T : Type) where
  entries : Nat → Option T

namespace MemStore

variable {T Err : Type}

def new : MemStore T := { entries := fun _ => none }

def insert (self : MemStore T) (pos : Nat) (elem : T) : MemStore T :=
  { entries := fun query => if query = pos then some elem else self.entries query }

/-- The insertion loop of `append`, at `enumerate` counter `i`. -/
def append.insertAll (b : Profile) (pos : Nat) :
    MemStore T → Nat → List T → Outcome Empty (MemStore T)
  | store, _, [] => ok store
  | store, i, elem :: elems => do
    let target ← U64.add b pos i
    append.insertAll b pos (store.insert target elem) (i + 1) elems

def readOps : MMRStoreReadOps (MemStore T) T Err where
  get_elem self pos := ok (self.entries pos)
  get_elems self positions := ok (positions.map self.entries)

def writeOps (b : Profile) : MMRStoreWriteOps (MemStore T) T Err where
  append self pos elems := do
    let store ← append.insertAll b pos self 0 elems
    ok (.ok (), store)

end MemStore

end merkleberg
