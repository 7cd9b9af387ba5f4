import Align.Scan
import Align.Segments

/-! Lexical path operations on bytes. `normalize` builds its result in place: the
written part of the block is the stack of components, popped by a backward scan for
a separator. A write outside the block is no result. -/
namespace Align.Paths
open Scan Segments

abbrev Bytes := List UInt8

def slash : UInt8 := 47

def dot : UInt8 := 46

def isSlash (c : UInt8) : Bool := c == slash

def notSlash (c : UInt8) : Bool := c != slash

def alignRtPathBase (b : Bytes) : Bytes :=
  if b = [] then []
  else
    let stop := scanBack isSlash b b.length
    if stop = 0 then slice b 0 1
    else slice b (scanBack notSlash b stop) stop

def alignRtPathDir (b : Bytes) : Bytes :=
  if b = [] then []
  else
    let stop := scanBack isSlash b b.length
    if stop = 0 then slice b 0 1
    else
      let start := scanBack notSlash b stop
      if start = 0 then []
      else
        let dend := scanBack isSlash b start
        if dend = 0 then slice b 0 1 else slice b 0 dend

def alignRtPathJoin (a b : Bytes) : Bytes :=
  if a = [] then b
  else if b = [] then a
  else slice a 0 (scanBack isSlash a a.length) ++ slash :: b.dropWhile isSlash

/-- The block and how much of it is written. -/
structure Output where
  dst : Bytes
  len : Nat

def pathOutputComponentStart (output : Output) : Nat := scanBack notSlash output.dst output.len

def Output.write (output : Output) (bytes : Bytes) : Option Output :=
  (store output.dst output.len bytes).map fun dst => ⟨dst, output.len + bytes.length⟩

def pathOutputAppend (output : Output) (absolute : Bool) (comp : Bytes) : Option Output :=
  (if 0 < output.len ∧ ¬ (absolute = true ∧ output.len = 1) then output.write [slash]
    else some output).bind fun output => output.write comp

def normalizeStep (absolute : Bool) (output : Output) (comp : Bytes) : Option Output :=
  if comp = [] ∨ comp = [dot] then some output
  else if comp = [dot, dot] then
    if absolute then
      if 1 < output.len then
        some { output with len := max (pathOutputComponentStart output - 1) 1 }
      else some output
    else
      let start := pathOutputComponentStart output
      let lastIsDotdot := output.len - start = 2 ∧ output.dst[start]? = some dot ∧
        output.dst[start + 1]? = some dot
      if output.len = 0 ∨ lastIsDotdot then pathOutputAppend output false comp
      else some { output with len := start - 1 }
  else pathOutputAppend output absolute comp

def isAbsolute (b : Bytes) : Bool := b.head? == some slash

def normalizeStart (dst b : Bytes) : Option Output :=
  if isAbsolute b then (Output.mk dst 0).write [slash] else some ⟨dst, 0⟩

/-- `dst` is the block of `max b.length 1` bytes the allocator returned. -/
def alignRtPathNormalize (dst b : Bytes) : Option Bytes := do
  let output ← normalizeStart dst b
  let output ← (b.splitOn slash).foldlM (normalizeStep (isAbsolute b)) output
  let output ← if output.len = 0 then output.write [dot] else some output
  some (slice output.dst 0 output.len)

def resolve (absolute : Bool) (stack : List Bytes) (comp : Bytes) : List Bytes :=
  if comp = [] ∨ comp = [dot] then stack
  else if comp = [dot, dot] then
    if absolute then stack.dropLast
    else if stack = [] ∨ stack.getLast? = some [dot, dot] then stack ++ [comp]
    else stack.dropLast
  else stack ++ [comp]

def render (absolute : Bool) (stack : List Bytes) : Bytes :=
  (if absolute then [slash] else []) ++ [slash].intercalate stack

def components (p : Bytes) : List Bytes := (p.splitOn slash).filter (· ≠ [])

def canonical (p : Bytes) : Bytes :=
  let text := render (isAbsolute p) ((components p).foldl (resolve (isAbsolute p)) [])
  if text = [] then [dot] else text

theorem intercalate_concat (nonempty : init ≠ []) :
    [slash].intercalate (init ++ [last]) = [slash].intercalate init ++ slash :: last := by
  induction init with
  | nil => exact absurd rfl nonempty
  | cons first rest ih =>
    cases rest with
    | nil => simp [List.intercalate, List.intersperse]
    | cons second others =>
      have later := ih (by simp)
      simp only [List.intercalate, List.cons_append, List.intersperse_cons_cons, List.flatten_cons,
        List.append_assoc] at later ⊢
      rw [later]

/-- A component that can stand on the stack. -/
def Named (comp : Bytes) : Prop := comp ≠ [] ∧ slash ∉ comp

theorem intercalate_ne_nil (named : ∀ comp ∈ stack, Named comp) :
    [slash].intercalate stack = [] ↔ stack = [] := by
  cases stack with
  | nil => exact ⟨fun _ => rfl, fun _ => rfl⟩
  | cons first rest =>
    have nonempty := (named first List.mem_cons_self).1
    cases rest with
    | nil => simp [List.intercalate, List.intersperse, nonempty]
    | cons second others =>
      simp [List.intercalate, List.intersperse_cons_cons, nonempty]

end Align.Paths
