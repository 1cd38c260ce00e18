import Pseudocode.Memory

/-!
# Numbered contexts

Several contexts over one memory, for looking at names and variables without running a program. Each
context is known by a number: zero is the global one, and every context opened later is like that of
a call. A number below zero counts back from the context opened last.
-/

namespace Pseudocode

/-- A memory with the contexts opened over it. -/
structure Contexts where
  memory : Memory := {}
  scopes : Array Scope := #[.global]

namespace Contexts

/-- Opens a context without names of its own; the result is its number. -/
def enter (c : Contexts) : Nat × Contexts :=
  (c.scopes.size, { c with scopes := c.scopes.push freshScope })

/-- The position of a context. -/
def position (c : Contexts) (number : Int) : Attempt Nat :=
  let k := if number < 0 then number + c.scopes.size else number
  if 0 ≤ k ∧ k < c.scopes.size then .ok k.toNat else breakDown .noContext

/-- The names of a context. -/
def scope (c : Contexts) (number : Int) : Attempt Scope := do
  return c.scopes.getD (← c.position number) .global

/-- The variable that a name is bound to in a context, if there is one. -/
def find? (c : Contexts) (number : Int) (name : String) : Attempt (Option Variable) := do
  return c.memory.find? (← c.scope number) name

/-- The variable that a name is bound to in a context, with its location. -/
def find (c : Contexts) (number : Int) (name : String) : Attempt (Location × Variable) := do
  let l ← c.memory.locate (← c.scope number) name
  match c.memory.at? l with
  | some v => return (l, v)
  | none => fail (.undeclared name)

/-- Binds a name of a context to a location. -/
def bind (c : Contexts) (number : Int) (name : String) (l : Location) : Attempt Contexts := do
  let (scope, memory) := c.memory.bind (← c.scope number) name l
  return { memory := memory, scopes := c.scopes.setIfInBounds (← c.position number) scope }

/-- Binds a name of a context to a new variable. -/
def declare (c : Contexts) (number : Int) (name : String) (v : Variable) : Attempt Contexts :=
  let (l, memory) := c.memory.allocate v
  bind { c with memory := memory } number name l

/-- The contexts with another variable at a location. -/
def put (c : Contexts) (l : Location) (v : Variable) : Contexts :=
  { c with memory := c.memory.put l v }

end Contexts

end Pseudocode
