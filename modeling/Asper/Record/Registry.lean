import Asper.Record.Store

/-! # The array of projects

`Registry` is the array behind the registry of projects: `index` searches it and `add` inserts into
it (`store.c`). The first `n` cells hold a slug each. Reading a cell that is outside of the array or
holds none, and moving slugs beyond its end, is `none`. -/

namespace Asper

open Durable (Bytes)

structure Registry where
  cells : List (Option Bytes)
  n : Nat

/-- Which allocations succeed. -/
structure SlugAlloc where
  grow : Bool
  dup : Bool

namespace Registry

def empty : Registry := ⟨[], 0⟩

/-! ## Searching -/

/-- The loop of the search; each turn shortens the interval, which the fuel bounds. -/
def indexFrom (g : Registry) (slug : Bytes) : Nat → Nat → Nat → Option (Nat × Bool)
  | 0, _, _ => none
  | fuel + 1, lo, hi =>
    if lo < hi then do
      let mid := lo + (hi - lo) / 2
      let cell ← g.cells[mid]?
      match strcmp (← cell) slug with
      | .eq => return (mid, true)
      | .lt => g.indexFrom slug fuel (mid + 1) hi
      | .gt => g.indexFrom slug fuel lo mid
    else some (lo, false)

/-- `asper_store_project_index`. -/
def index (g : Registry) (slug : Bytes) : Option (Nat × Bool) := g.indexFrom slug (g.n + 1) 0 g.n

/-! ## Adding -/

/-- `realloc` to twice the cells, or to the first eight. -/
def grown (g : Registry) : Registry :=
  ⟨g.cells ++ List.replicate (if g.cells.length = 0 then 8 else g.cells.length) none, g.n⟩

/-- `memmove` the slugs from `pos` on by one cell and store the slug. -/
def insertAt (g : Registry) (pos : Nat) (slug : Bytes) : Option Registry :=
  if pos ≤ g.n ∧ g.n < g.cells.length then
    some ⟨g.cells.take pos ++ some slug :: ((g.cells.drop pos).take (g.n - pos) ++
      g.cells.drop (g.n + 1)), g.n + 1⟩
  else none

/-- The end of `asper_store_project_add`, when there is room for the slug. -/
def addCopy (g : Registry) (pos : Nat) (slug : Bytes) (a : SlugAlloc) :
    Option (Registry × Except Err Unit) :=
  if a.dup then (g.insertAt pos slug).map fun g' => (g', .ok ()) else some (g, .error .nomem)

/-- `asper_store_project_add`; a project not given is `none`. -/
def add (g : Registry) (a : SlugAlloc) : Option Bytes → Option (Registry × Except Err Unit)
  | none => some (g, .error .invalid)
  | some slug =>
    if slugValid slug = true then do
      let found ← g.index slug
      if found.2 then return (g, .ok ())
      else if projectLimit ≤ g.n then return (g, .error .limit)
      else if g.n = g.cells.length then
        if a.grow then g.grown.addCopy found.1 slug a else return (g, .error .nomem)
      else g.addCopy found.1 slug a
    else some (g, .error .invalid)

end Registry

/-! ## Loading -/

/-- A file among the projects, with what the calls for it come to: whether its slug and its path
find memory, and what `store_load_section_file` says. -/
structure ProjectFile where
  name : Bytes
  slugAlloc : Bool
  pathAlloc : Bool
  load : Except Err Unit
  alloc : SlugAlloc

/-- What a call did: the array after it, the slugs it added and its result. -/
structure Registering where
  registry : Registry
  added : List Bytes
  result : Except Err Unit

def Registry.addLogged (g : Registry) (a : SlugAlloc) (slug : Option Bytes) : Option Registering :=
  (g.add a slug).map fun (g', r) => ⟨g', if r = .ok () then slug.toList else [], r⟩

/-- The loop of `store_load_projects`, over the names in order. -/
def Registry.loadFrom (g : Registry) : List ProjectFile → Option Registering
  | [] => some ⟨g, [], .ok ()⟩
  | f :: fs =>
    if f.name.length ≤ 5 ∨ f.name.drop (f.name.length - 5) ≠ ascii ".xcdn" then g.loadFrom fs
    else if f.slugAlloc = false then some ⟨g, [], .error .nomem⟩
    else if slugValid (f.name.take (f.name.length - 5)) = false then g.loadFrom fs
    else if f.pathAlloc = false then some ⟨g, [], .error .nomem⟩
    else
      match f.load with
      | .error e => some ⟨g, [], .error e⟩
      | .ok _ =>
        (g.addLogged f.alloc (some (f.name.take (f.name.length - 5)))).bind fun s =>
          match s.result with
          | .error _ => some s
          | .ok _ => (s.registry.loadFrom fs).map fun t => { t with added := s.added ++ t.added }

/-- `store_load_projects`, of what `os_list_dir` lists. -/
def Registry.load (g : Registry) : Except Err (List ProjectFile) → Option Registering
  | .error e => some ⟨g, [], .error e⟩
  | .ok files => g.loadFrom (files.mergeSort fun f f' => strcmp f.name f'.name ≠ .gt)

/-! ## Runs -/

/-- The calls that touch the array. Operations and compaction add, opening a store loads and closing
it frees the array. -/
inductive RegistryCall where
  | add (slug : Option Bytes) (a : SlugAlloc)
  | load (files : Except Err (List ProjectFile))
  | close

/-- One call, of an array and the slugs added to it. -/
def RegistryCall.step (s : Registry × List Bytes) : RegistryCall → Option (Registry × List Bytes)
  | .add slug a => (s.1.addLogged a slug).map fun t => (t.registry, s.2 ++ t.added)
  | .load files => (s.1.load files).map fun t => (t.registry, s.2 ++ t.added)
  | .close => some (.empty, [])

/-- A run from an array that nothing was added to. -/
def registryRun (calls : List RegistryCall) : Option (Registry × List Bytes) :=
  calls.foldlM RegistryCall.step (.empty, [])

end Asper
