import Align.JsonParser
import Align.Utf8Validate

/-! The document tape: one pass over the input validates it and flattens the tree
into an array of nodes, each holding the index just past its subtree. -/
namespace Align.JsonDoc
open JsonText JsonParser List Option

/-- One tape node; all four fields are `u32` in the source. -/
structure DocNode where
  kind : Nat
  next : Nat
  a : Nat
  b : Nat
  deriving DecidableEq

def DOC_OBJECT : Nat := 0
def DOC_ARRAY : Nat := 1
def DOC_STR : Nat := 2
def DOC_NUMBER : Nat := 3
def DOC_BOOL : Nat := 4
def DOC_NULL : Nat := 5
def DOC_MISSING : Nat := 6

def MAX_DEPTH : Nat := 128

def asU32 (n : Nat) : Nat := n % 2 ^ 32

/-! The builder. `total` is the input length, so that a cursor `rest` stands at
byte `total - rest.length`. -/

def position (total : Nat) (rest : Bytes) : Nat := total - rest.length

/-- The span of the string at the cursor. On any other byte the source's second
branch starts with `expect('"')`, which fails. -/
def scanString (total : Nat) (rest : Bytes) : Option (Nat × Nat × Bytes) :=
  if peek rest = some quote then
    (stringBody rest).bind fun (raw, rest') =>
      let start := position total rest + 1
      if start < 2 ^ 32 ∧ raw.length < 2 ^ 32 then some (start, raw.length, rest') else none
  else none

def push (nodes : List DocNode) (kind a b : Nat) : List DocNode :=
  nodes ++ [⟨kind, asU32 (asU32 nodes.length + 1), a, b⟩]

/-- Fill in a container's head once its children are emitted. -/
def patch (nodes : List DocNode) (head : Nat) (kind count : Nat) : List DocNode :=
  nodes.set head ⟨kind, asU32 nodes.length, count, 0⟩

mutual

/-- One value and its subtree. The first argument bounds the recursion only. -/
def value (total : Nat) : Nat → Nat → Bytes → List DocNode → Option (Bytes × List DocNode)
  | 0, _, _, _ => none
  | fuel + 1, depth, rest, nodes =>
      if depth > MAX_DEPTH then none
      else
        let rest := ws rest
        match peek rest with
        | none => none
        | some b =>
            if b = openBrace then object total fuel depth rest nodes
            else if b = openBracket then array total fuel depth rest nodes
            else if b = quote then
              (scanString total rest).map fun (a, len, rest') => (rest', push nodes DOC_STR a len)
            else if b = 0x74 ∨ b = 0x66 then
              (boolean rest).map fun (v, rest') => (rest', push nodes DOC_BOOL v.toNat 0)
            else if b = 0x6E then
              (skipNull rest).map fun rest' => (rest', push nodes DOC_NULL 0 0)
            else if b = 0x2D ∨ isDigit b then
              (numberSpan rest).map fun (_, rest') =>
                (rest', push nodes DOC_NUMBER (asU32 (position total rest))
                  (asU32 (position total rest' - position total rest)))
            else none

def object (total : Nat) : Nat → Nat → Bytes → List DocNode → Option (Bytes × List DocNode)
  | 0, _, _, _ => none
  | fuel + 1, depth, rest, nodes =>
      let oi := nodes.length
      let nodes := nodes ++ [⟨DOC_OBJECT, 0, 0, 0⟩]
      (expect openBrace rest).bind fun rest =>
        let rest := ws rest
        if peek rest = some closeBrace then some (rest.tail, patch nodes oi DOC_OBJECT 0)
        else
          (members total fuel depth rest nodes 0).map fun (rest, nodes, count) =>
            (rest, patch nodes oi DOC_OBJECT count)

def members (total : Nat) :
    Nat → Nat → Bytes → List DocNode → Nat → Option (Bytes × List DocNode × Nat)
  | 0, _, _, _, _ => none
  | fuel + 1, depth, rest, nodes, count =>
      (scanString total (ws rest)).bind fun (ka, kb, rest) =>
        let nodes := push nodes DOC_STR ka kb
        (expect colon (ws rest)).bind fun rest =>
          (value total fuel (depth + 1) rest nodes).bind fun (rest, nodes) =>
            if count + 1 ≥ 2 ^ 32 then none
            else
              let rest := ws rest
              if peek rest = some comma then members total fuel depth rest.tail nodes (count + 1)
              else if peek rest = some closeBrace then some (rest.tail, nodes, count + 1)
              else none

def array (total : Nat) : Nat → Nat → Bytes → List DocNode → Option (Bytes × List DocNode)
  | 0, _, _, _ => none
  | fuel + 1, depth, rest, nodes =>
      let ai := nodes.length
      let nodes := nodes ++ [⟨DOC_ARRAY, 0, 0, 0⟩]
      (expect openBracket rest).bind fun rest =>
        let rest := ws rest
        if peek rest = some closeBracket then some (rest.tail, patch nodes ai DOC_ARRAY 0)
        else
          (elements total fuel depth rest nodes 0).map fun (rest, nodes, count) =>
            (rest, patch nodes ai DOC_ARRAY count)

def elements (total : Nat) :
    Nat → Nat → Bytes → List DocNode → Nat → Option (Bytes × List DocNode × Nat)
  | 0, _, _, _, _ => none
  | fuel + 1, depth, rest, nodes, count =>
      (value total fuel (depth + 1) rest nodes).bind fun (rest, nodes) =>
        if count + 1 ≥ 2 ^ 32 then none
        else
          let rest := ws rest
          if peek rest = some comma then elements total fuel depth rest.tail nodes (count + 1)
          else if peek rest = some closeBracket then some (rest.tail, nodes, count + 1)
          else none

end

/-- `align_rt_json_doc_parse`: the node array of an accepted document. -/
def docParse (target : Utf8Validate.Target) (src : Bytes) : Option (List DocNode) :=
  if src.length > 2 ^ 32 - 1 then none
  else if ¬ Utf8Validate.validateUtf8 target src then none
  else
    (value src.length (2 * src.length + 1) 0 src []).bind fun (rest, nodes) =>
      if (ws rest).length ≠ 0 then none
      else if nodes.length > 2 ^ 32 - 1 then none
      else some nodes

/-! What the tape holds. `Seg n base seg j`: the nodes `seg`, placed at index
`base`, are the subtree of `j`, whose values lie inside at most `n` containers. -/

variable {j : Json Bytes} {n : Nat}

section Segments
variable (input : Bytes)

inductive ItemSegs (P : Nat → List DocNode → Json Bytes → Prop) :
    Nat → List DocNode → List (Json Bytes) → Prop where
  | nil (base : Nat) : ItemSegs P base [] []
  | cons (base : Nat) (seg segs : List DocNode) (j : Json Bytes) (js : List (Json Bytes))
      (first : P base seg j) (rest : ItemSegs P (base + seg.length) segs js) :
      ItemSegs P base (seg ++ segs) (j :: js)

inductive MemberSegs (P : Nat → List DocNode → Json Bytes → Prop) :
    Nat → List DocNode → List (Bytes × Json Bytes) → Prop where
  | nil (base : Nat) : MemberSegs P base [] []
  | cons (base a b : Nat) (key : Bytes) (seg segs : List DocNode) (j : Json Bytes)
      (ms : List (Bytes × Json Bytes)) (inside : a + b ≤ input.length)
      (name : Body ((input.drop a).take b) key) (first : P (base + 1) seg j) (rest : MemberSegs P (base + 1 + seg.length) segs ms) :
      MemberSegs P base (⟨DOC_STR, base + 1, a, b⟩ :: (seg ++ segs)) ((key, j) :: ms)

inductive SegLayer (P : Nat → List DocNode → Json Bytes → Prop) :
    Nat → List DocNode → Json Bytes → Prop where
  | null (base : Nat) : SegLayer P base [⟨DOC_NULL, base + 1, 0, 0⟩] .null
  | bool (base : Nat) (v : Bool) : SegLayer P base [⟨DOC_BOOL, base + 1, v.toNat, 0⟩] (.bool v)
  | number (base a b : Nat) (inside : a + b ≤ input.length) :
      SegLayer P base [⟨DOC_NUMBER, base + 1, a, b⟩] (.number ((input.drop a).take b))
  | string (base a b : Nat) (text : Bytes) (inside : a + b ≤ input.length)
      (ok : Body ((input.drop a).take b) text) :
      SegLayer P base [⟨DOC_STR, base + 1, a, b⟩] (.string text)
  | array (base : Nat) (segs : List DocNode) (js : List (Json Bytes))
      (items : ItemSegs P (base + 1) segs js) :
      SegLayer P base (⟨DOC_ARRAY, base + 1 + segs.length, js.length, 0⟩ :: segs) (.array js)
  | object (base : Nat) (segs : List DocNode) (ms : List (Bytes × Json Bytes))
      (items : MemberSegs input P (base + 1) segs ms) :
      SegLayer P base (⟨DOC_OBJECT, base + 1 + segs.length, ms.length, 0⟩ :: segs) (.object ms)

def Seg : Nat → Nat → List DocNode → Json Bytes → Prop
  | 0 => SegLayer input fun _ _ _ => False
  | n + 1 => SegLayer input (Seg n)

variable {seg : List DocNode}

section Monotone
variable {P Q : Nat → List DocNode → Json Bytes → Prop}

theorem itemSegs_mono (widen : ∀ base seg j, P base seg j → Q base seg j)
     (items : ItemSegs P base segs js) :
    ItemSegs Q base segs js := by
  induction items with
  | nil base => exact .nil base
  | cons base seg segs j js first _ ih => exact .cons base seg segs j js (widen _ _ _ first) ih

theorem memberSegs_mono (widen : ∀ base seg j, P base seg j → Q base seg j)
     (items : MemberSegs input P base segs ms) :
    MemberSegs input Q base segs ms := by
  induction items with
  | nil base => exact .nil base
  | cons base a b key seg segs j ms inside name first _ ih =>
    exact .cons base a b key seg segs j ms inside name (widen _ _ _ first) ih

theorem segLayer_mono (widen : ∀ base seg j, P base seg j → Q base seg j) (layer : SegLayer input P base seg j) :
    SegLayer input Q base seg j := by
  cases layer with
  | null => exact .null base
  | bool v => exact .bool base v
  | number a b inside => exact .number base a b inside
  | string a b text inside ok => exact .string base a b text inside ok
  | array segs js items => exact .array base segs js (itemSegs_mono widen items)
  | object segs ms items => exact .object base segs ms (memberSegs_mono _ widen items)

end Monotone

theorem seg_layer (holds : Seg input n base seg j) :
    ∃ m, SegLayer input (Seg input m) base seg j := by
  cases n with
  | zero => exact ⟨0, segLayer_mono _ (fun _ _ _ impossible => impossible.elim) holds⟩
  | succ n => exact ⟨n, holds⟩

end Segments

/-! Building is complete: a text of the grammar is accepted, and what is emitted
is the tree's segment. -/

theorem asU32_of_lt (n : Nat) (small : n < 2 ^ 32) : asU32 n = n := Nat.mod_eq_of_lt small

theorem push_eq {nodes : List DocNode} (a b : Nat) (small : nodes.length + 1 < 2 ^ 32) :
    push nodes kind a b = nodes ++ [⟨kind, nodes.length + 1, a, b⟩] := by
  rw [push, asU32_of_lt nodes.length (by omega), asU32_of_lt _ small]

theorem patch_eq (nodes segs : List DocNode) (head : DocNode) (kind count : Nat)
    (small : nodes.length + 1 + segs.length < 2 ^ 32) :
    patch (nodes ++ [head] ++ segs) nodes.length kind count =
      nodes ++ ⟨kind, nodes.length + 1 + segs.length, count, 0⟩ :: segs := by
  have size : (nodes ++ [head] ++ segs).length = nodes.length + 1 + segs.length := by
    simp
    omega
  rw [patch, size, asU32_of_lt _ small]
  simp

theorem position_eq (src before rest : Bytes) (split : src = before ++ rest) :
    position src.length rest = before.length := by
  rw [position, split, length_append]
  omega

variable {before : Bytes}

theorem scanString_complete {src raw text rest : Bytes} (body : Body raw text)
    (split : src = before ++ (quoted raw ++ rest)) (small : src.length < 2 ^ 32) :
    scanString src.length (quoted raw ++ rest) = some (before.length + 1, raw.length, rest) ∧
      (src.drop (before.length + 1)).take raw.length = raw := by
  have place := position_eq _ _ _ split
  have size : src.length = before.length + (raw.length + 2 + rest.length) := by
    rw [split]
    simp [quoted]
    omega
  constructor
  · have bounds : before.length + 1 < 2 ^ 32 ∧ raw.length < 2 ^ 32 := by omega
    have head : peek (quoted raw ++ rest) = some quote := rfl
    rw [scanString, if_pos head, stringBody_complete _ body, bind_some, place]
    exact if_pos bounds
  · have shape : src = (before ++ [quote]) ++ (raw ++ quote :: rest) := by
      rw [split]
      simp [quoted]
    have offset : before.length + 1 = (before ++ [quote]).length := by simp
    rw [shape, offset, drop_left, take_left]

/-- What `value` does once white space is skipped and the first byte is known. -/
def dispatch (total fuel depth : Nat) (b : UInt8) (rest : Bytes) (nodes : List DocNode) :
    Option (Bytes × List DocNode) :=
  if b = openBrace then object total fuel depth rest nodes
  else if b = openBracket then array total fuel depth rest nodes
  else if b = quote then
    (scanString total rest).map fun (a, len, rest') => (rest', push nodes DOC_STR a len)
  else if b = 0x74 ∨ b = 0x66 then
    (boolean rest).map fun (v, rest') => (rest', push nodes DOC_BOOL v.toNat 0)
  else if b = 0x6E then
    (skipNull rest).map fun rest' => (rest', push nodes DOC_NULL 0 0)
  else if b = 0x2D ∨ isDigit b then
    (numberSpan rest).map fun (_, rest') =>
      (rest', push nodes DOC_NUMBER (asU32 (position total rest))
        (asU32 (position total rest' - position total rest)))
  else none

theorem value_dispatch (total fuel : Nat) {depth : Nat} (tail : Bytes)
    (nodes : List DocNode) (shallow : depth ≤ MAX_DEPTH) (blank : Ws w) (solid : isWs b = false) :
    value total (fuel + 1) depth (w ++ b :: tail) nodes = dispatch total fuel depth b (b :: tail) nodes := by
  rw [value, if_neg (by omega)]
  simp only [ws_to b blank solid, peek, head?_cons]
  rfl

theorem dispatch_null (total fuel depth : Nat) (rest : Bytes) (nodes : List DocNode) :
    dispatch total fuel depth 0x6E rest nodes =
      (skipNull rest).map fun rest' => (rest', push nodes DOC_NULL 0 0) := rfl

variable (total fuel depth : Nat) {b : UInt8} (rest : Bytes) (nodes : List DocNode)

theorem dispatch_bool (start : b = 0x74 ∨ b = 0x66) :
    dispatch total fuel depth b rest nodes =
      (boolean rest).map fun found => (found.2, push nodes DOC_BOOL found.1.toNat 0) := by
  rcases start with rfl | rfl <;> rfl

theorem dispatch_string :
    dispatch total fuel depth quote rest nodes =
      (scanString total rest).map fun found => (found.2.2, push nodes DOC_STR found.1 found.2.1) := rfl

theorem dispatch_number (start : b = 0x2D ∨ isDigit b = true) :
    isWs b = false ∧ dispatch total fuel depth b rest nodes =
      (numberSpan rest).map fun found =>
        (found.2, push nodes DOC_NUMBER (asU32 (position total rest))
          (asU32 (position total found.2 - position total rest))) := by
  rcases start with rfl | digit
  · exact ⟨rfl, rfl⟩
  · obtain ⟨solid, _, brace, bracket, string, word, null⟩ := digits_start digit
    refine ⟨solid, ?_⟩
    rw [dispatch, if_neg brace, if_neg bracket, if_neg string, if_neg word, if_neg null,
      if_pos (Or.inr digit)]

variable {t : Bytes}

theorem scalar_complete {src w rest : Bytes} (scalar : Scalar Body j t)
    (blank : Ws w) (stop : Stops rest) (split : src = before ++ (w ++ (t ++ rest)))
    (small : src.length < 2 ^ 32) (fuel : Nat) {depth : Nat} {nodes : List DocNode}
    (shallow : depth ≤ MAX_DEPTH) (room : nodes.length ≤ before.length) :
    ∃ node, value src.length (fuel + 1) depth (w ++ (t ++ rest)) nodes = some (rest, nodes ++ [node]) ∧
      ∀ P, SegLayer src P nodes.length [node] j := by
  have full : src.length = before.length + (w.length + (t.length + rest.length)) := by
    rw [split]
    simp
  have placed : src = (before ++ w) ++ (t ++ rest) := by
    rw [split]
    simp
  cases scalar with
  | null =>
    refine ⟨⟨DOC_NULL, nodes.length + 1, 0, 0⟩, ?_, fun P => .null _⟩
    rw [length_cons] at full
    rw [cons_append, value_dispatch _ _ _ _ shallow blank (by decide),
      dispatch_null, ← push_eq 0 0 (by omega), ← cons_append, skipNull,
      afterLiteral_append, map_some]
  | true =>
    refine ⟨⟨DOC_BOOL, nodes.length + 1, 1, 0⟩, ?_, fun P => .bool _ true⟩
    rw [length_cons] at full
    rw [cons_append, value_dispatch _ _ _ _ shallow blank (by decide),
      dispatch_bool _ _ _ _ _ (Or.inl rfl), ← push_eq 1 0 (by omega),
      ← cons_append, boolean_true, map_some]
    rfl
  | false =>
    refine ⟨⟨DOC_BOOL, nodes.length + 1, 0, 0⟩, ?_, fun P => .bool _ false⟩
    rw [length_cons] at full
    rw [cons_append, value_dispatch _ _ _ _ shallow blank (by decide),
      dispatch_bool _ _ _ _ _ (Or.inr rfl), ← push_eq 0 0 (by omega),
      ← cons_append, boolean_false, map_some]
    rfl
  | string raw text ok =>
    obtain ⟨scanned, inside⟩ := scanString_complete ok placed small
    have size : (quoted raw).length = raw.length + 2 := by simp [quoted]
    refine ⟨⟨DOC_STR, nodes.length + 1, (before ++ w).length + 1, raw.length⟩, ?_, fun P => ?_⟩
    · rw [show quoted raw ++ rest = quote :: (raw ++ [quote] ++ rest) from rfl,
        value_dispatch _ _ _ _ shallow blank (by decide), dispatch_string,
        ← push_eq _ _ (by omega)]
      exact congrArg (Option.map _) scanned
    · refine .string _ _ _ _ (by rw [length_append]; omega) ?_
      rw [inside]
      exact ok
  | number span ok =>
    obtain ⟨b, tail, rfl, start⟩ := number_start t ok
    have here := position_eq _ _ _ placed
    have behind := position_eq src (before ++ w ++ b :: tail) rest (by simp [placed])
    have spanAt : (src.drop (before ++ w).length).take (b :: tail).length = b :: tail := by
      rw [placed, drop_left, take_left]
    have size : (b :: tail).length = tail.length + 1 := rfl
    have apart : position src.length rest - position src.length (b :: tail ++ rest) =
      (b :: tail).length := by
      rw [here, behind, length_append, Nat.add_sub_cancel_left]
    refine ⟨⟨DOC_NUMBER, nodes.length + 1, (before ++ w).length, (b :: tail).length⟩, ?_, fun P => ?_⟩
    · obtain ⟨solid, found⟩ :=
        dispatch_number _ _ _ _ _ start
      rw [cons_append, value_dispatch _ _ _ _ shallow blank solid, ← cons_append, found,
        numberSpan_complete ok stop, map_some, apart, here, asU32_of_lt _ (by simp; omega),
        asU32_of_lt _ (by omega),
        push_eq _ _ (by omega)]
    · have leaf := @SegLayer.number src P nodes.length (before ++ w).length
        (b :: tail).length (by rw [length_append]; omega)
      rwa [spanAt] at leaf

section Completeness
variable (src : Bytes) (P : Json Bytes → Bytes → Prop) (Q : Nat → List DocNode → Json Bytes → Prop)

/-- What `value` does at some depth on the text of a value in `P`: it consumes
that text and emits a segment in `Q`, no longer than the text. -/
def Builds (depth : Nat) : Prop :=
  ∀ (before w t rest : Bytes) (j : Json Bytes) (fuel : Nat) (nodes : List DocNode),
    P j t → Ws w → Stops rest → src = before ++ (w ++ (t ++ rest)) →
    nodes.length ≤ before.length → 2 * t.length ≤ fuel →
    ∃ seg, value src.length fuel depth (w ++ (t ++ rest)) nodes = some (rest, nodes ++ seg) ∧
      Q nodes.length seg j ∧ seg.length ≤ t.length

variable {total fuel depth : Nat} {text w rest : Bytes} {nodes nodes' : List DocNode}
  {count : Nat}

theorem elements_first (blank : Ws w) (solid : isWs b = false) (fits : count + 1 < 2 ^ 32)
    (first : value total fuel (depth + 1) text nodes = some (w ++ b :: rest, nodes')) :
    elements total (fuel + 1) depth text nodes count =
      if b = comma then elements total fuel depth rest nodes' (count + 1)
      else if b = closeBracket then some (rest, nodes', count + 1) else none := by
  rw [elements, first, bind_some]
  simp only [ws_to b blank solid, peek_cons, Option.some.injEq, tail_cons]
  rw [if_neg (by omega)]

theorem elements_complete (builds : Builds src P Q (depth + 1)) (heads : Heads P) (small : src.length < 2 ^ 32)
    (items : Elements P js body) (before rest : Bytes) (fuel : Nat) (nodes : List DocNode)
    (count : Nat) (split : src = before ++ (body ++ closeBracket :: rest))
    (room : nodes.length ≤ before.length) (counted : count ≤ before.length)
    (enough : 2 * body.length + 1 ≤ fuel) :
    ∃ segs, elements src.length fuel depth (body ++ closeBracket :: rest) nodes count =
        some (rest, nodes ++ segs, count + js.length) ∧
      ItemSegs Q nodes.length segs js ∧ segs.length ≤ body.length := by
  induction items generalizing before fuel nodes count with
  | last w t w' j blank ok after =>
    obtain ⟨fuel, rfl⟩ : ∃ k, fuel = k + 1 := ⟨fuel - 1, by omega⟩
    simp only [append_assoc] at split ⊢
    have size : src.length = before.length + (w.length + (t.length + (w'.length + (rest.length + 1)))) := by
      rw [split]
      simp
    simp only [length_append] at enough
    have stop := stops_mark rest after (Or.inr (Or.inl rfl))
    obtain ⟨seg, built, holds, short⟩ := builds before w t _ j fuel nodes ok blank
      stop split room (by omega)
    refine ⟨seg, ?_, ?_, by simp only [length_append]; omega⟩
    · exact elements_first after rfl (by omega) built
    · have only := ItemSegs.cons nodes.length seg [] j [] holds (.nil _)
      rwa [append_nil] at only
  | more w t w' body j js blank ok after tail ih =>
    obtain ⟨fuel, rfl⟩ : ∃ k, fuel = k + 1 := ⟨fuel - 1, by omega⟩
    simp only [append_assoc, cons_append] at split ⊢
    have size : src.length = before.length + (w.length + (t.length + (w'.length +
      (body.length + (rest.length + 1) + 1)))) := by
      rw [split]
      simp
    simp only [length_append, length_cons] at enough
    have stop := stops_mark (body ++ closeBracket :: rest) after (Or.inl rfl)
    obtain ⟨seg, built, holds, short⟩ := builds before w t _ j fuel nodes ok blank
      stop split room (by omega)
    have split' : src = (before ++ (w ++ (t ++ (w' ++ [comma])))) ++ (body ++ closeBracket :: rest) := by
      rw [split]
      simp
    have filled : 0 < t.length := by
      obtain ⟨b, tail, rfl, _⟩ := heads j t ok
      simp
    obtain ⟨segs, run, rests, short'⟩ := ih _ fuel (nodes ++ seg) (count + 1) split'
      (by simp only [length_append, length_cons, length_nil]; omega)
      (by simp only [length_append, length_cons, length_nil]; omega) (by omega)
    refine ⟨seg ++ segs, ?_, ?_, by simp only [length_append, length_cons]; omega⟩
    · rw [elements_first after rfl (by omega) built, if_pos rfl, run]
      simp only [append_assoc, length_cons, Nat.add_assoc, Nat.add_comm]
    · refine .cons nodes.length seg segs j js holds ?_
      rwa [length_append] at rests

variable (total fuel depth : Nat) {text inner w₁ w : Bytes} (rest : Bytes) (nodes : List DocNode) {nodes' : List DocNode}
  {ka kb count : Nat}

theorem members_first (behind : Ws w₁) (blank : Ws w) (solid : isWs b = false) (fits : count + 1 < 2 ^ 32)
    (name : scanString total (ws text) = some (ka, kb, w₁ ++ colon :: inner))
    (first : value total fuel (depth + 1) inner (push nodes DOC_STR ka kb) = some (w ++ b :: rest, nodes')) :
    members total (fuel + 1) depth text nodes count =
      if b = comma then members total fuel depth rest nodes' (count + 1)
      else if b = closeBrace then some (rest, nodes', count + 1) else none := by
  rw [members, name, bind_some]
  simp only [ws_to colon behind rfl, expect_cons, bind_some, first, ws_to b blank solid, peek_cons,
    Option.some.injEq, tail_cons]
  rw [if_neg (by omega)]

theorem member_complete (builds : Builds src P Q (depth + 1)) (small : src.length < 2 ^ 32)
    (before w w₁ t rest : Bytes) (j : Json Bytes) (fuel : Nat) (nodes : List DocNode)
    (blank : Ws w) (name : Body raw key) (gap : Ws w₂) (ok : P j t) (stop : Stops rest)
    (split : src = before ++ (w ++ (quoted raw ++ (w₁ ++ colon :: (w₂ ++ (t ++ rest))))))
    (room : nodes.length ≤ before.length) (enough : 2 * t.length ≤ fuel) :
    ∃ ka kb seg,
      scanString src.length (ws (w ++ (quoted raw ++ (w₁ ++ colon :: (w₂ ++ (t ++ rest)))))) =
        some (ka, kb, w₁ ++ colon :: (w₂ ++ (t ++ rest))) ∧
      value src.length fuel (depth + 1) (w₂ ++ (t ++ rest)) (push nodes DOC_STR ka kb) =
        some (rest, nodes ++ (⟨DOC_STR, nodes.length + 1, ka, kb⟩ :: seg)) ∧
      ka + kb ≤ src.length ∧ Body ((src.drop ka).take kb) key ∧ Q (nodes.length + 1) seg j ∧
      seg.length ≤ t.length := by
  have split₁ : src = (before ++ w) ++ (quoted raw ++ (w₁ ++ colon :: (w₂ ++ (t ++ rest)))) := by
    rw [split]
    simp
  have split₂ : src = (before ++ (w ++ (quoted raw ++ (w₁ ++ [colon])))) ++ (w₂ ++ (t ++ rest)) := by
    rw [split]
    simp
  have wide : nodes.length + 1 ≤ (before ++ (w ++ (quoted raw ++ (w₁ ++ [colon])))).length := by
    simp only [length_append, length_cons]
    omega
  obtain ⟨scanned, spells⟩ := scanString_complete name split₁ small
  obtain ⟨seg, built, holds, short⟩ := builds _ w₂ t rest j fuel
    (nodes ++ [⟨DOC_STR, nodes.length + 1, (before ++ w).length + 1, raw.length⟩]) ok gap stop split₂
    (by simpa using wide) enough
  rw [length_append, length_singleton] at holds
  have keyed := congrArg List.length split₁
  simp only [length_append, quoted, length_cons] at keyed
  refine ⟨(before ++ w).length + 1, raw.length, seg, ?_, ?_, ?_, ?_, holds, short⟩
  · rw [ws_skip _ blank (noWs_quoted _ _), scanned]
  · rw [push_eq _ _ (by omega), built]
    simp
  · rw [length_append]
    omega
  · rw [spells]
    exact name

theorem members_complete (builds : Builds src P Q (depth + 1)) (small : src.length < 2 ^ 32)
    (items : Members Body P ms body)
    (before rest : Bytes) (fuel : Nat) (nodes : List DocNode) (count : Nat)
    (split : src = before ++ (body ++ closeBrace :: rest)) (room : nodes.length ≤ before.length)
    (counted : count ≤ before.length) (enough : 2 * body.length + 1 ≤ fuel) :
    ∃ segs, members src.length fuel depth (body ++ closeBrace :: rest) nodes count =
        some (rest, nodes ++ segs, count + ms.length) ∧
      MemberSegs src Q nodes.length segs ms ∧ segs.length ≤ body.length := by
  induction items generalizing before fuel nodes count with
  | last w raw w₁ w₂ t w' key j blank name behind gap ok after =>
    obtain ⟨fuel, rfl⟩ : ∃ k, fuel = k + 1 := ⟨fuel - 1, by omega⟩
    simp only [append_assoc, cons_append] at split ⊢
    have size := congrArg List.length split
    simp only [length_append, length_cons] at enough size
    have stop := stops_mark rest after (Or.inr (Or.inr rfl))
    obtain ⟨ka, kb, seg, scanned, built, within, spelled, holds, short⟩ := member_complete _ P Q _ builds
      small _ w _ t _ j fuel _ blank name gap ok stop split room (by omega)
    refine ⟨⟨DOC_STR, nodes.length + 1, ka, kb⟩ :: seg, ?_, ?_, ?_⟩
    · exact members_first _ _ _ _ _ behind after rfl (by omega) scanned built
    · have only := @MemberSegs.cons src _ nodes.length ka kb key seg [] j [] within spelled holds (.nil _)
      rwa [append_nil] at only
    · simp only [length_append, length_cons]
      omega
  | more w raw w₁ w₂ t w' body key j ms blank name behind gap ok after tail ih =>
    obtain ⟨fuel, rfl⟩ : ∃ k, fuel = k + 1 := ⟨fuel - 1, by omega⟩
    simp only [append_assoc, cons_append] at split ⊢
    have size := congrArg List.length split
    simp only [length_append, length_cons] at enough size
    have stop := stops_mark (body ++ closeBrace :: rest) after (Or.inl rfl)
    obtain ⟨ka, kb, seg, scanned, built, within, spelled, holds, short⟩ := member_complete src P Q _ builds
      small _ w w₁ t _ j fuel _ blank name gap ok stop split room (by omega)
    have split' : src = (before ++ (w ++ (quoted raw ++ (w₁ ++ colon :: (w₂ ++ (t ++
      (w' ++ [comma]))))))) ++ (body ++ closeBrace :: rest) := by
      rw [split]
      simp
    obtain ⟨segs, run, rests, short'⟩ := ih _ fuel
      (nodes ++ (⟨DOC_STR, nodes.length + 1, ka, kb⟩ :: seg)) (count + 1) split'
      (by simp only [length_append, length_cons, length_nil]; omega)
      (by simp only [length_append, length_cons, length_nil]; omega) (by omega)
    refine ⟨⟨DOC_STR, nodes.length + 1, ka, kb⟩ :: (seg ++ segs), ?_, ?_, ?_⟩
    · rw [members_first _ fuel _ _ _ behind after rfl (by omega) scanned built, if_pos rfl, run]
      simp only [append_assoc, cons_append, length_cons, Nat.add_assoc, Nat.add_comm]
    · refine .cons nodes.length ka kb key seg segs j ms within spelled holds ?_
      rwa [length_append, length_cons, Nat.add_comm seg.length, ← Nat.add_assoc] at rests
    · simp only [length_append, length_cons]
      omega

theorem dispatch_array :
    dispatch total fuel depth openBracket rest nodes = array total fuel depth rest nodes := rfl

theorem dispatch_object :
    dispatch total fuel depth openBrace rest nodes = object total fuel depth rest nodes := rfl

theorem array_empty (blank : Ws w) (small : nodes.length + 1 < 2 ^ 32) :
    array total (fuel + 1) depth (openBracket :: (w ++ closeBracket :: rest)) nodes =
      some (rest, nodes ++ [⟨DOC_ARRAY, nodes.length + 1, 0, 0⟩]) := by
  have patched := patch_eq _ [] ⟨DOC_ARRAY, 0, 0, 0⟩ DOC_ARRAY 0 (by simpa using small)
  rw [append_nil] at patched
  rw [array, expect_cons, bind_some]
  simp only [ws_to closeBracket blank rfl, peek_cons, patched]
  rfl

theorem object_empty (blank : Ws w) (small : nodes.length + 1 < 2 ^ 32) :
    object total (fuel + 1) depth (openBrace :: (w ++ closeBrace :: rest)) nodes =
      some (rest, nodes ++ [⟨DOC_OBJECT, nodes.length + 1, 0, 0⟩]) := by
  have patched := patch_eq _ [] ⟨DOC_OBJECT, 0, 0, 0⟩ DOC_OBJECT 0 (by simpa using small)
  rw [append_nil] at patched
  rw [object, expect_cons, bind_some]
  simp only [ws_to closeBrace blank rfl, peek_cons, patched]
  rfl

variable {total fuel depth : Nat} {w tail rest : Bytes} (c : UInt8) {nodes segs : List DocNode}
  {count : Nat}

theorem array_items (blank : Ws w) (solid : isWs c = false) (inner : c ≠ closeBracket)
    (small : nodes.length + 1 + segs.length < 2 ^ 32)
    (items : elements total fuel depth (c :: tail) (nodes ++ [⟨DOC_ARRAY, 0, 0, 0⟩]) 0 =
      some (rest, nodes ++ [⟨DOC_ARRAY, 0, 0, 0⟩] ++ segs, count)) :
    array total (fuel + 1) depth (openBracket :: (w ++ c :: tail)) nodes =
      some (rest, nodes ++ ⟨DOC_ARRAY, nodes.length + 1 + segs.length, count, 0⟩ :: segs) := by
  have other : ¬ some c = some closeBracket := fun same => inner (Option.some.inj same)
  rw [array, expect_cons, bind_some]
  simp only [ws_to c blank solid, peek_cons]
  rw [if_neg other, items, map_some, patch_eq _ _ _ _ _ small]

theorem object_items (blank : Ws w) (small : nodes.length + 1 + segs.length < 2 ^ 32)
    (items : members total fuel depth (quote :: tail) (nodes ++ [⟨DOC_OBJECT, 0, 0, 0⟩]) 0 =
      some (rest, nodes ++ [⟨DOC_OBJECT, 0, 0, 0⟩] ++ segs, count)) :
    object total (fuel + 1) depth (openBrace :: (w ++ quote :: tail)) nodes =
      some (rest, nodes ++ ⟨DOC_OBJECT, nodes.length + 1 + segs.length, count, 0⟩ :: segs) := by
  rw [object, expect_cons, bind_some]
  simp only [ws_to quote blank rfl, peek_cons]
  rw [if_neg (by decide), items, map_some, patch_eq _ _ _ _ _ small]

theorem layer_builds (builds : Builds src P Q (depth + 1)) (heads : Heads P)
    (small : src.length < 2 ^ 32) (shallow : depth ≤ MAX_DEPTH) :
    Builds src (Layer Body P) (SegLayer src Q) depth := by
  intro before w t rest j fuel nodes layer blank stop split room enough
  have size := congrArg List.length split
  simp only [length_append] at size
  obtain ⟨b, tail', shape, -⟩ := layer_head j t layer
  obtain ⟨fuel, rfl⟩ : ∃ k, fuel = k + 2 := ⟨fuel - 2, by rw [shape, length_cons] at enough; omega⟩
  cases layer with
  | scalar j t ok =>
    obtain ⟨node, built, holds⟩ := scalar_complete ok blank stop split small _ shallow room
    exact ⟨[node], built, holds Q, by rw [shape]; simp⟩
  | emptyArray v inner =>
    simp only [cons_append, append_assoc, length_cons] at split size ⊢
    refine ⟨[⟨DOC_ARRAY, nodes.length + 1, 0, 0⟩], ?_, ?_, by simp⟩
    · rw [value_dispatch _ _ _ _ shallow blank (by decide), dispatch_array]
      exact array_empty _ _ _ _ _ inner (by omega)
    · exact .array nodes.length [] [] (.nil _)
  | emptyObject v inner =>
    simp only [cons_append, append_assoc, length_cons] at split size ⊢
    refine ⟨[⟨DOC_OBJECT, nodes.length + 1, 0, 0⟩], ?_, ?_, by simp⟩
    · rw [value_dispatch _ _ _ _ shallow blank (by decide), dispatch_object]
      exact object_empty _ _ _ _ _ inner (by omega)
    · exact .object nodes.length [] [] (.nil _)
  | array js body items =>
    obtain ⟨v, t, tail, inner, ⟨j, ok⟩, rfl, items'⟩ := elements_trim items
    obtain ⟨c, t', rfl, solid, inside⟩ := heads j t ok
    simp only [cons_append, nil_append, append_assoc, length_cons, length_append,
      length_nil] at split size enough items' ⊢
    have split' : src = (before ++ (w ++ openBracket :: v)) ++
      ((c :: (t' ++ tail)) ++ closeBracket :: rest) := by
      rw [split]
      simp
    obtain ⟨segs, run, holds, short⟩ := elements_complete _ P Q builds heads small items'
      _ _ fuel (nodes ++ [⟨DOC_ARRAY, 0, 0, 0⟩]) 0 split'
      (by simp only [length_append, length_cons, length_nil]; omega) (by omega)
      (by simp only [length_append, length_cons]; omega)
    simp only [length_append, length_cons, length_nil, cons_append, append_assoc,
      Nat.zero_add] at run holds short
    refine ⟨_, ?_, .array nodes.length segs js holds, by simp only [length_cons]; omega⟩
    rw [value_dispatch _ _ _ _ shallow blank (by decide), dispatch_array]
    exact array_items c inner solid inside (by omega)
      (by rw [run]; simp)
  | object ms body items =>
    obtain ⟨v, tail, inner, rfl, items'⟩ := members_trim items
    simp only [cons_append, nil_append, append_assoc, length_cons, length_append,
      length_nil] at split size enough ⊢
    have split' : src = (before ++ (w ++ openBrace :: v)) ++ ((quote :: tail) ++ closeBrace :: rest) := by
      rw [split]
      simp
    obtain ⟨segs, run, holds, short⟩ := members_complete _ P Q _ builds small items'
      _ _ fuel (nodes ++ [⟨DOC_OBJECT, 0, 0, 0⟩]) 0 split'
      (by simp only [length_append, length_cons, length_nil]; omega) (by omega)
      (by simp only [length_cons]; omega)
    simp only [length_append, length_cons, length_nil, cons_append, append_assoc,
      Nat.zero_add] at run holds short
    refine ⟨_, ?_, .object nodes.length segs ms holds, by simp only [length_cons]; omega⟩
    rw [value_dispatch _ _ _ _ shallow blank (by decide), dispatch_object]
    exact object_items inner (by omega)
      (by rw [run]; simp)

end Completeness

theorem value_complete {src : Bytes} (small : src.length < 2 ^ 32) (depth : Nat)
    (shallow : depth + n ≤ MAX_DEPTH) : Builds src (Value Body n) (Seg src n) depth := by
  induction n generalizing depth with
  | zero =>
    refine layer_builds _ _ _ ?_ ?_ small shallow
    · intro _ _ _ _ _ _ _ impossible
      exact impossible.elim
    · intro _ _ impossible
      exact impossible.elim
  | succ n ih =>
    exact layer_builds _ _ _ (ih (depth + 1) (by omega)) (value_head n) small (by omega)

/-! Building is sound: what is consumed is a text of the grammar. -/

/-- The values that may stand at a depth. -/
def Within (depth : Nat) (j : Json Bytes) (t : Bytes) : Prop :=
  depth ≤ MAX_DEPTH ∧ Value Body (MAX_DEPTH - depth) j t

theorem layer_within {depth : Nat} (shallow : depth ≤ MAX_DEPTH)
    (layer : Layer Body (Within (depth + 1)) j t) : Within depth j t := by
  refine ⟨shallow, ?_⟩
  cases room : MAX_DEPTH - depth with
  | zero =>
    refine layer_mono ?_ layer
    rintro j t ⟨deeper, -⟩
    omega
  | succ n =>
    refine layer_mono ?_ layer
    rintro j t ⟨-, ok⟩
    rwa [show MAX_DEPTH - (depth + 1) = n by omega] at ok

variable {rest' : Bytes}

theorem scanString_sound {total : Nat} {rest : Bytes} (found : scanString total rest = some (a, len, rest')) :
    ∃ raw text, Body raw text ∧ rest = quoted raw ++ rest' := by
  unfold scanString at found
  split at found
  · obtain ⟨⟨raw, behind⟩, body, found⟩ := bind_eq_some_iff.mp found
    obtain ⟨text, decoded, shape⟩ := stringBody_sound _ body
    dsimp only at found
    split at found
    · cases found
      exact ⟨raw, text, decoded, shape⟩
    · contradiction
  · contradiction

/-- Soundness of the five builder functions, at some bound on the recursion. -/
structure Sound (total fuel : Nat) : Prop where
  value : ∀ depth rest nodes rest' nodes', value total fuel depth rest nodes = some (rest', nodes') →
    ∃ w j t, Ws w ∧ Within depth j t ∧ rest = w ++ (t ++ rest')
  object : ∀ depth rest nodes rest' nodes', object total fuel depth rest nodes = some (rest', nodes') →
    ∃ j t, Layer Body (Within (depth + 1)) j t ∧ rest = t ++ rest'
  members : ∀ depth rest nodes count rest' nodes' count',
    members total fuel depth rest nodes count = some (rest', nodes', count') →
    ∃ ms body, Members Body (Within (depth + 1)) ms body ∧ rest = body ++ closeBrace :: rest'
  array : ∀ depth rest nodes rest' nodes', array total fuel depth rest nodes = some (rest', nodes') →
    ∃ j t, Layer Body (Within (depth + 1)) j t ∧ rest = t ++ rest'
  elements : ∀ depth rest nodes count rest' nodes' count',
    elements total fuel depth rest nodes count = some (rest', nodes', count') →
    ∃ js body, Elements (Within (depth + 1)) js body ∧ rest = body ++ closeBracket :: rest'

variable (total fuel : Nat) {depth : Nat}

theorem dispatch_sound (ih : Sound total fuel) {rest : Bytes} {nodes nodes' : List DocNode}
    (found : dispatch total fuel depth b rest nodes = some (rest', nodes')) :
    ∃ j t, Layer Body (Within (depth + 1)) j t ∧ rest = t ++ rest' := by
  unfold dispatch at found
  split_ifs at found
  · exact ih.object depth rest nodes rest' nodes' found
  · exact ih.array depth rest nodes rest' nodes' found
  · obtain ⟨⟨a, len, behind⟩, scanned, same⟩ := map_eq_some_iff.mp found
    cases same
    obtain ⟨raw, text, ok, shape⟩ := scanString_sound scanned
    exact ⟨_, _, .scalar _ _ (.string raw text ok), shape⟩
  · obtain ⟨⟨v, behind⟩, scanned, same⟩ := map_eq_some_iff.mp found
    cases same
    have shape := boolean_some scanned
    cases v with
    | true => exact ⟨_, _, .scalar _ _ .true, shape⟩
    | false => exact ⟨_, _, .scalar _ _ .false, shape⟩
  · obtain ⟨behind, scanned, same⟩ := map_eq_some_iff.mp found
    cases same
    exact ⟨_, _, .scalar _ _ .null, afterLiteral_some scanned⟩
  · obtain ⟨⟨span, behind⟩, scanned, same⟩ := map_eq_some_iff.mp found
    cases same
    obtain ⟨ok, shape⟩ := numberSpan_sound _ scanned
    exact ⟨_, _, .scalar _ _ (.number span ok), shape⟩

theorem value_sound (ih : Sound total fuel) {depth : Nat} {rest : Bytes} {nodes nodes' : List DocNode}
    (found : value total (fuel + 1) depth rest nodes = some (rest', nodes')) :
    ∃ w j t, Ws w ∧ Within depth j t ∧ rest = w ++ (t ++ rest') := by
  obtain ⟨w, blank, split⟩ := ws_split _
  rw [value] at found
  split at found
  · contradiction
  rename_i shallow
  rcases head : peek (ws rest) with _ | b
  · simp [head] at found
  simp only [head] at found
  obtain ⟨j, t, layer, shape⟩ := dispatch_sound _ _ ih found
  refine ⟨w, j, t, blank, layer_within (Nat.le_of_not_lt shallow) layer, ?_⟩
  rw [← shape]
  exact split

theorem elements_sound (ih : Sound total fuel) {depth : Nat} {rest : Bytes}
    {nodes nodes' : List DocNode} {count : Nat}
    (found : elements total (fuel + 1) depth rest nodes count = some (rest', nodes', count')) :
    ∃ js body, Elements (Within (depth + 1)) js body ∧ rest = body ++ closeBracket :: rest' := by
  rw [elements] at found
  obtain ⟨⟨behind, emitted⟩, first, next⟩ := bind_eq_some_iff.mp found
  obtain ⟨w, j, t, blank, ok, rfl⟩ := ih.value _ _ _ _ _ first
  apply elements_step blank ok
  dsimp only at next
  split_ifs at next with full more last
  · exact Or.inl ⟨more, ih.elements _ _ _ _ _ _ _ next⟩
  · cases next
    exact Or.inr ⟨last, rfl⟩

theorem members_sound (ih : Sound total fuel) {depth : Nat} {rest : Bytes}
    {nodes nodes' : List DocNode} {count : Nat}
    (found : members total (fuel + 1) depth rest nodes count = some (rest', nodes', count')) :
    ∃ ms body, Members Body (Within (depth + 1)) ms body ∧ rest = body ++ closeBrace :: rest' := by
  rw [members] at found
  obtain ⟨⟨ka, kb, named⟩, scanned, found⟩ := bind_eq_some_iff.mp found
  obtain ⟨raw, key, name, keyed⟩ := scanString_sound scanned
  obtain ⟨inner, marked, found⟩ := bind_eq_some_iff.mp found
  obtain ⟨⟨behind, emitted⟩, first, next⟩ := bind_eq_some_iff.mp found
  obtain ⟨w₂, j, t, gap, ok, rfl⟩ := ih.value _ _ _ _ _ first
  obtain ⟨w, blank, front⟩ := ws_split rest
  obtain ⟨w₁, between, colons⟩ := ws_split named
  rw [front, keyed, colons, expect_some marked]
  apply members_step blank name between gap ok
  dsimp only at next
  split_ifs at next with full more last
  · exact Or.inl ⟨more, ih.members _ _ _ _ _ _ _ next⟩
  · cases next
    exact Or.inr ⟨last, rfl⟩

theorem array_sound (ih : Sound total fuel) {depth : Nat} {rest : Bytes} {nodes nodes' : List DocNode}
    (found : array total (fuel + 1) depth rest nodes = some (rest', nodes')) :
    ∃ j t, Layer Body (Within (depth + 1)) j t ∧ rest = t ++ rest' := by
  rw [array] at found
  obtain ⟨inner, marked, found⟩ := bind_eq_some_iff.mp found
  apply array_step marked
  dsimp only at found
  split_ifs at found with empty
  · cases found
    exact Or.inl ⟨empty, rfl⟩
  · obtain ⟨⟨behind, emitted, count⟩, items, same⟩ := map_eq_some_iff.mp found
    cases same
    exact Or.inr (ih.elements _ _ _ _ _ _ _ items)

theorem object_sound (ih : Sound total fuel) {depth : Nat} {rest : Bytes} {nodes nodes' : List DocNode}
    (found : object total (fuel + 1) depth rest nodes = some (rest', nodes')) :
    ∃ ms t, Layer Body (Within (depth + 1)) (.object ms) t ∧ rest = t ++ rest' := by
  rw [object] at found
  obtain ⟨inner, marked, found⟩ := bind_eq_some_iff.mp found
  apply object_step marked
  dsimp only at found
  split_ifs at found with empty
  · cases found
    exact Or.inl ⟨empty, rfl⟩
  · obtain ⟨⟨behind, emitted, count⟩, items, same⟩ := map_eq_some_iff.mp found
    cases same
    exact Or.inr (ih.members _ _ _ _ _ _ _ items)

theorem builder_sound : Sound total fuel := by
  induction fuel with
  | zero =>
    constructor <;> intros <;> simp_all [value, object, members, array, elements]
  | succ fuel ih =>
    constructor
    · intro depth rest nodes rest' nodes'
      exact value_sound _ _ ih
    · intro depth rest nodes rest' nodes' found
      obtain ⟨ms, t, layer, shape⟩ := object_sound _ _ ih found
      exact ⟨_, t, layer, shape⟩
    · intro depth rest nodes count rest' nodes' count'
      exact members_sound _ _ ih
    · intro depth rest nodes rest' nodes'
      exact array_sound _ _ ih
    · intro depth rest nodes count rest' nodes' count'
      exact elements_sound _ _ ih

theorem docParse_complete (target : Utf8Validate.Target) {src : Bytes}
    (small : src.length < 2 ^ 32) (valid : src.toByteArray.IsValidUTF8) (text : Text Body MAX_DEPTH tree src) :
    ∃ nodes, docParse target src = some nodes ∧ Seg src MAX_DEPTH 0 nodes tree := by
  obtain ⟨w, v, w', blank, ok, after, split⟩ := text
  have size := congrArg List.length split
  simp only [length_append] at size
  have stop : Stops w' := by
    have ends := stops_ws _ [] after (fun _ none => by cases none)
    rwa [append_nil] at ends
  obtain ⟨nodes, built, holds, short⟩ := value_complete small 0 (by decide) [] w v w' tree
    (2 * src.length + 1) [] ok blank stop split (Nat.le_refl 0) (by omega)
  have spent : ws w' = [] := by
    have nothing := ws_append [] after
    rwa [append_nil] at nothing
  refine ⟨nodes, ?_, holds⟩
  rw [docParse, if_neg (by omega), if_neg (not_not.mpr ((Utf8Validate.selected_exact _ _).mpr valid))]
  rw [← split, nil_append] at built
  rw [built, bind_some]
  simp only [spent, length_nil]
  rw [if_neg (by simp), if_neg (by omega)]

theorem docParse_sound {src : Bytes} {nodes : List DocNode} (parsed : docParse target src = some nodes) :
    src.length < 2 ^ 32 ∧ src.toByteArray.IsValidUTF8 ∧ ∃ tree, Text Body MAX_DEPTH tree src := by
  unfold docParse at parsed
  split_ifs at parsed with long invalid
  obtain ⟨⟨rest, emitted⟩, built, ends⟩ := bind_eq_some_iff.mp parsed
  dsimp only at ends
  split_ifs at ends with trailing
  obtain ⟨w, tree, t, blank, ⟨-, ok⟩, split⟩ := (builder_sound _ _).value 0 src [] rest emitted built
  obtain ⟨w', after, tail⟩ := ws_split _
  rw [length_eq_zero_iff.mp (not_not.mp trailing), append_nil] at tail
  refine ⟨by omega, (Utf8Validate.selected_exact _ _).mp invalid, tree,
    w, t, rest, blank, ok, tail ▸ after, split⟩

end Align.JsonDoc
