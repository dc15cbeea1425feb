import Merkleberg.Machine.Word

open machine machine.Outcome

namespace merkleberg.helper

variable {ε : Type} (b : Profile)

/-- Total positions of the tree that ends with the given leaf. -/
def leaf_index_to_mmr_size (index : Nat) : Outcome ε Nat := do
  let leaves_count ← U64.add b index 1
  let peak_count := U64.countOnes leaves_count
  let doubled ← U64.mul b 2 leaves_count
  U64.sub b doubled peak_count

def leaf_index_to_pos (index : Nat) : Outcome ε Nat := do
  let size ← leaf_index_to_mmr_size b index
  let next ← U64.add b index 1
  let before ← U64.sub b size (U64.trailingZeros next)
  U64.sub b before 1

/-- The body of the loop in `pos_height_in_tree`. -/
def pos_height_in_tree.body : Nat × Nat → Outcome ε (Pass (Nat × Nat) Nat)
  | (pos, peak_size) =>
    if peak_size > 0 then do
      let pos ← if pos ≥ peak_size then U64.sub b pos peak_size else ok pos
      let peak_size ← U64.shr b peak_size 1
      ok (.next (pos, peak_size))
    else ok (.done pos)

/-- Height of a position. The all-ones sizes halve, so 65 passes are enough. -/
def pos_height_in_tree (pos : Nat) : Outcome ε Nat :=
  if pos = 0 then ok 0 else do
    let peak_size ← U64.shr b U64.max (U64.leadingZeros pos)
    let pos ← loop (pos_height_in_tree.body b) 65 (pos, peak_size)
    ok (pos % 2 ^ 8)

def parent_offset (height : Nat) : Outcome ε Nat := U64.shl b 2 height

def sibling_offset (height : Nat) : Outcome ε Nat := do
  let offset ← U64.shl b 2 height
  U64.sub b offset 1

/-- The body of the loop in `get_peak_map`, over `pos`, `peak_size`, `peak_map`. -/
def get_peak_map.body : Nat × Nat × Nat → Outcome ε (Pass (Nat × Nat × Nat) Nat)
  | (pos, peak_size, peak_map) =>
    if peak_size > 0 then do
      let peak_map ← U64.shl b peak_map 1
      let (pos, peak_map) ←
        if pos ≥ peak_size then do
          let pos ← U64.sub b pos peak_size
          ok (pos, peak_map ||| 1)
        else ok (pos, peak_map)
      let peak_size ← U64.shr b peak_size 1
      ok (.next (pos, peak_size, peak_map))
    else ok (.done peak_map)

/-- The bitmap of peak heights, which is the number of leaves of the largest
    tree of at most this size. -/
def get_peak_map (mmr_size : Nat) : Outcome ε Nat :=
  if mmr_size = 0 then ok 0 else do
    let peak_size ← U64.shr b U64.max (U64.leadingZeros mmr_size)
    loop (get_peak_map.body b) 65 (mmr_size, peak_size, 0)

/-- Iterator over peak positions of the bagged tree. -/
structure PeaksIter where
  pos : Nat
  peak_size : Nat
  peaks_sum : Nat

def PeaksIter.new (mmr_size : Nat) : Outcome ε PeaksIter :=
  if mmr_size = 0 then ok { pos := 0, peak_size := 0, peaks_sum := 0 } else do
    let peak_size ← U64.shr b U64.max (U64.leadingZeros mmr_size)
    ok { pos := mmr_size, peak_size, peaks_sum := 0 }

/-- The body of the loop in `PeaksIter::next`: the loop ends with the sizes
    used up or with the first peak found. -/
def PeaksIter.next.body : PeaksIter × Option Nat →
    Outcome ε (Pass (PeaksIter × Option Nat) (Option Nat × PeaksIter))
  | (self, peak_opt) =>
    if self.peak_size > 0 ∧ peak_opt = none then do
      let (pos, peaks_sum, peak_opt) ←
        if self.pos ≥ self.peak_size then do
          let pos ← U64.sub b self.pos self.peak_size
          let stop ← U64.add b self.peaks_sum self.peak_size
          let peak ← U64.sub b stop 1
          let peaks_sum ← U64.add b self.peaks_sum self.peak_size
          ok (pos, peaks_sum, some peak)
        else ok (self.pos, self.peaks_sum, peak_opt)
      let peak_size ← U64.shr b self.peak_size 1
      ok (.next ({ pos, peak_size, peaks_sum }, peak_opt))
    else ok (.done (peak_opt, self))

def PeaksIter.next (self : PeaksIter) : Outcome ε (Option Nat × PeaksIter) :=
  loop (PeaksIter.next.body b) 65 (self, none)

/-- `size_hint`, whose two halves agree and are also what `len` returns. -/
def PeaksIter.len (self : PeaksIter) : Outcome ε Nat :=
  if self.peak_size = 0 then ok 0 else do
    let count ← U64.add b (self.pos / self.peak_size) 1
    ok (U64.countOnes count)

/-- One call of `next` made by `collect`. -/
def collect.body {I : Type} (next : I → Outcome ε (Option Nat × I)) :
    I × List Nat → Outcome ε (Pass (I × List Nat) (List Nat))
  | (state, items) => do
    let (item, state) ← next state
    match item with
    | some item => ok (.next (state, items ++ [item]))
    | none => ok (.done items)

/-- `Iterator::collect`. Neither iterator below has more than 128 items. -/
def collect {I : Type} (next : I → Outcome ε (Option Nat × I)) (state : I) : Outcome ε (List Nat) :=
  loop (collect.body next) 129 (state, [])

def all_ones (pos : Nat) : Outcome ε Bool :=
  if pos = 0 then ok false else do
    let bits ← U64.sub b 64 (U64.leadingZeros pos)
    let imsb ← U64.sub b bits 1
    let amount ← U64.add b imsb 1
    let power ← U64.shl b 1 amount
    let mask ← U64.sub b power 1
    ok (pos = mask)

def most_sig_bit (pos : Nat) : Outcome ε Nat :=
  if pos = 0 then ok 0 else do
    let bits ← U64.sub b 64 (U64.leadingZeros pos)
    let imsb ← U64.sub b bits 1
    U64.shl b 1 imsb

/-- The body of the loop in `index_height_mmriver`: jump left by the top bit
    less one. -/
def index_height_mmriver.body (pos : Nat) : Outcome ε (Pass Nat Nat) := do
  if ← all_ones b pos then ok (.done pos)
  else do
    let msb ← most_sig_bit b pos
    let jump ← U64.sub b msb 1
    let pos ← U64.sub b pos jump
    ok (.next pos)

/-- Height of an index. Every jump clears the top bit, so 66 passes are enough. -/
def index_height_mmriver (i : Nat) : Outcome ε Nat := do
  let pos ← U64.add b i 1
  let pos ← loop (index_height_mmriver.body b) 66 pos
  let bits ← U64.sub b 64 (U64.leadingZeros pos)
  U64.sub b bits 1

/-- Iterator over peak positions of the accumulator tree. -/
structure PeaksMMRIVERIter where
  peak : Nat
  remaining : Nat

def PeaksMMRIVERIter.new (i : Nat) : Outcome ε PeaksMMRIVERIter := do
  let remaining ← U64.add b i 1
  ok { peak := 0, remaining }

def PeaksMMRIVERIter.next (self : PeaksMMRIVERIter) :
    Outcome ε (Option Nat × PeaksMMRIVERIter) :=
  if self.remaining = 0 then ok (none, self) else do
    let next ← U64.add b self.remaining 1
    let bit ← U64.ilog2 next
    let power ← U64.shl b 1 bit
    let highest_size ← U64.sub b power 1
    let peak ← U64.add b self.peak highest_size
    let remaining ← U64.sub b self.remaining highest_size
    let item ← U64.sub b peak 1
    ok (some item, { peak, remaining })

/-- `size_hint`, whose two halves agree and are also what `len` returns. -/
def PeaksMMRIVERIter.len (self : PeaksMMRIVERIter) : Nat := U64.countOnes self.remaining

/-- One pass of the loop in `inclusion_proof_path`, over `i`, `g`, `path`. -/
def inclusion_proof_path.body (c : Nat) :
    Nat × Nat × List Nat → Outcome ε (Pass (Nat × Nat × List Nat) (List Nat))
  | (i, g, path) => do
    let sibling_offset ← U64.shl b 2 g
    let above ← U64.add b i 1
    let next_height ← index_height_mmriver b above
    if next_height > g then do
      let lower ← U64.sub b i sibling_offset
      let isibling ← U64.add b lower 1
      let i ← U64.add b i 1
      if isibling > c then ok (.done path)
      else do
        let g ← U8.add b g 1
        ok (.next (i, g, path ++ [isibling]))
    else do
      let upper ← U64.add b i sibling_offset
      let isibling ← U64.sub b upper 1
      let i ← U64.add b i sibling_offset
      if isibling > c then ok (.done path)
      else do
        let g ← U8.add b g 1
        ok (.next (i, g, path ++ [isibling]))

/-- Sibling indices from a node up to the peak above it. The passes depend on the
    64 bits of `i` and the 8 bits of `g` only, so that a loop which has not returned
    after `2 ^ 72` of them has come to the same `i` and `g` twice, and never returns. -/
def inclusion_proof_path (i c : Nat) : Outcome ε (List Nat) := do
  let g ← index_height_mmriver b i
  loop (inclusion_proof_path.body b c) (2 ^ 72) (i, g, [])

end merkleberg.helper
