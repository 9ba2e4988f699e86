import FlowState.Graph.Reach

/-! # Function boundaries

A function is a name with the entry points of that name and all blocks that are reached from them.
Each entry point also has a range of addresses, from itself to the highest end among its blocks; a
look-up by address takes the first range that covers it. -/

namespace FlowState

/-- A named address where a function starts. -/
structure EntryPoint where
  address : Address
  name : String
  deriving Repr, DecidableEq

/-- The addresses that an entry point reaches, both ends included. -/
structure EntryRange where
  name : String
  start : Address
  stop : Address
  deriving Repr, DecidableEq

/-- A named collection of blocks. -/
structure Function where
  name : String
  entryPoints : List EntryPoint
  blocks : List Nat
  deriving Repr, DecidableEq

/-- The ranges and the functions of an image. -/
structure Boundaries where
  ranges : List EntryRange
  functions : List Function
  deriving Repr, DecidableEq

/-- The address lies in the range. -/
def EntryRange.contains (r : EntryRange) (a : Address) : Bool := r.start ≤ a && a ≤ r.stop

/-- The least of some addresses. -/
def Address.least? : List Address → Option Address
  | [] => none
  | a :: as => some (as.foldl (fun x y => if y < x then y else x) a)

/-- The greatest of some addresses. -/
def Address.greatest? : List Address → Option Address
  | [] => none
  | a :: as => some (as.foldl (fun x y => if x < y then y else x) a)

namespace Function

/-- The address is that of an entry point of the function. -/
def isEntryPoint (f : Function) (a : Address) : Bool := f.entryPoints.any fun e => e.address == a

/-- The lowest start among the blocks. -/
def start? (f : Function) (g : BlockGraph) : Option Address :=
  Address.least? ((f.blocks.filterMap fun n => g.blocks[n]?).map Block.start)

/-- The highest end among the blocks. -/
def stop? (f : Function) (g : BlockGraph) : Option Address :=
  Address.greatest? ((f.blocks.filterMap fun n => g.blocks[n]?).map Block.stop)

end Function

namespace Boundaries

/-- No ranges and no functions. -/
def empty : Boundaries := ⟨[], []⟩

instance : Inhabited Boundaries := ⟨empty⟩

/-- The range of an entry point that reaches the blocks. -/
def rangeOf (g : BlockGraph) (e : EntryPoint) (blocks : List Nat) : EntryRange :=
  let stops := (blocks.filterMap fun n => g.blocks[n]?).map Block.stop
  ⟨e.name, e.address, (Address.greatest? stops).getD e.address⟩

/-- A function with one more entry point and the blocks that it does not have yet. -/
def extend (f : Function) (e : EntryPoint) (blocks : List Nat) : Function :=
  { f with
    entryPoints := f.entryPoints ++ [e]
    blocks := f.blocks ++ blocks.filter fun n => !f.blocks.contains n }

/-- One more entry point: the function of its name is extended, or a new one comes last. -/
def addReach (fs : List Function) (e : EntryPoint) (blocks : List Nat) : List Function :=
  if fs.any fun f => f.name == e.name then
    fs.map fun f => if f.name == e.name then extend f e blocks else f
  else fs ++ [extend ⟨e.name, [], []⟩ e blocks]

/-- **The functions of a graph.** -/
def reconstruct (g : BlockGraph) (entryPoints : List EntryPoint) (stop : Bool) : Boundaries :=
  let unique := entryPoints.eraseDups
  let addresses := unique.map (·.address)
  let blocksOf (e : EntryPoint) : List Nat := g.reach e.address addresses stop
  { ranges := unique.map fun e => rangeOf g e (blocksOf e)
    functions := unique.foldl (fun fs e => addReach fs e (blocksOf e)) [] }

/-- The function of a name. -/
def functionNamed? (b : Boundaries) (name : String) : Option Function :=
  b.functions.find? fun f => f.name == name

/-- **The function at an address**: that of the first range that covers it. -/
def functionAt? (b : Boundaries) (a : Address) : Option Function :=
  (b.ranges.find? fun r => r.contains a).bind fun r => b.functionNamed? r.name

/-- **The entry point at an address**, the first one among the functions. -/
def entryPointAt? (b : Boundaries) (a : Address) : Option EntryPoint :=
  (b.functions.flatMap (·.entryPoints)).find? fun e => e.address == a

end Boundaries

end FlowState
