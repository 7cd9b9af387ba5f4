import Align.JsonDoc

/-! The document accessors. A handle is a node index, negative for `Missing`; each
accessor walks the tape by the nodes' skip indices. In the results `none` stands
for a read outside the tape or the input, and for the abort of `keys`. -/
namespace Align.JsonAccess
open JsonText JsonParser JsonDoc List Option

def docNode (nodes : List DocNode) (node : Int) : Option DocNode :=
  if node < 0 then none else nodes[node.toNat]?

def docKind (nodes : List DocNode) (node : Int) : Nat :=
  match docNode nodes node with
  | some n => n.kind
  | none => DOC_MISSING

/-- The slice of the input a node's span names. -/
def rawSpan (input : Bytes) (n : DocNode) : Option Bytes :=
  if n.a + n.b ≤ input.length then some ((input.drop n.a).take n.b) else none

/-- The member walk of `get`: `count` members from key node `mi` on. -/
def getLoop (input : Bytes) (nodes : List DocNode) (want : Bytes) : Nat → Nat → Option Int
  | 0, _ => some (-1)
  | count + 1, mi =>
      nodes[mi]?.bind fun kn =>
        (rawSpan input kn).bind fun raw =>
          if jsonStringEquals raw want then some kn.next
          else nodes[kn.next]?.bind fun vn => getLoop input nodes want count vn.next

def docGet (input : Bytes) (nodes : List DocNode) (node : Int) (want : Bytes) : Option Int :=
  match docNode nodes node with
  | some n => if n.kind = DOC_OBJECT then getLoop input nodes want n.a (node.toNat + 1) else some (-1)
  | none => some (-1)

def skipNodes (nodes : List DocNode) : Nat → Nat → Option Nat
  | 0, i => some i
  | count + 1, i => nodes[i]?.bind fun n => skipNodes nodes count n.next

def docAt (nodes : List DocNode) (node index : Int) : Option Int :=
  match docNode nodes node with
  | some n =>
      if n.kind = DOC_ARRAY ∧ 0 ≤ index ∧ index < n.a then
        (skipNodes nodes index.toNat (node.toNat + 1)).map fun (i : Nat) => (i : Int)
      else some (-1)
  | none => some (-1)

/-- The text of a string node: the input bytes themselves when nothing is
escaped, else the decoded bytes; `some none` where the source returns 0. -/
def docWriteStr (input : Bytes) (n : DocNode) : Option (Option Bytes) :=
  (rawSpan input n).map fun raw =>
    if ¬ raw.contains backslash then some raw
    else (jsonUnescapedLen raw).bind fun len => jsonUnescapeTo raw len

def docAsStr (input : Bytes) (nodes : List DocNode) (node : Int) : Option (Option Bytes) :=
  match docNode nodes node with
  | some n => if n.kind ≠ DOC_STR then some none else docWriteStr input n
  | none => some none

def docLen (nodes : List DocNode) (node : Int) : Nat :=
  match docNode nodes node with
  | some n => if n.kind = DOC_OBJECT ∨ n.kind = DOC_ARRAY then n.a else 0
  | none => 0

/-- From a member's key node over `count` members to a later key node. -/
def skipMembers (nodes : List DocNode) : Nat → Nat → Option Nat
  | 0, mi => some mi
  | count + 1, mi =>
      nodes[mi]?.bind fun kn => nodes[kn.next]?.bind fun vn => skipMembers nodes count vn.next

def docKey (input : Bytes) (nodes : List DocNode) (node index : Int) : Option (Option Bytes) :=
  match docNode nodes node with
  | some n =>
      if n.kind ≠ DOC_OBJECT ∨ index < 0 ∨ index ≥ n.a then some none
      else
        (skipMembers nodes index.toNat (node.toNat + 1)).bind fun mi =>
          nodes[mi]?.bind fun kn => docWriteStr input kn
  | none => some none

def keysLoop (input : Bytes) (nodes : List DocNode) : Nat → Nat → Option (List Bytes)
  | 0, _ => some []
  | count + 1, ki =>
      nodes[ki]?.bind fun key =>
        (docWriteStr input key).bind fun written =>
          written.bind fun text =>
            nodes[key.next]?.bind fun vn =>
              (keysLoop input nodes count vn.next).map fun texts => text :: texts

def docKeys (input : Bytes) (nodes : List DocNode) (node : Int) : Option (List Bytes) :=
  match docNode nodes node with
  | some n =>
      if n.kind ≠ DOC_OBJECT ∨ n.a = 0 then some [] else keysLoop input nodes n.a (node.toNat + 1)
  | none => some []

def elemsLoop (nodes : List DocNode) (isArray : Bool) : Nat → Nat → Option (List Int)
  | 0, _ => some []
  | count + 1, ci =>
      (if isArray then some ci else nodes[ci]?.map DocNode.next).bind fun vi =>
        nodes[vi]?.bind fun vn =>
          (elemsLoop nodes isArray count vn.next).map fun handles => (vi : Int) :: handles

def docElems (nodes : List DocNode) (node : Int) : Option (List Int) :=
  match docNode nodes node with
  | some n =>
      if (n.kind ≠ DOC_OBJECT ∧ n.kind ≠ DOC_ARRAY) ∨ n.a = 0 then some []
      else elemsLoop nodes (n.kind == DOC_ARRAY) n.a (node.toNat + 1)
  | none => some []

/-! The same accesses on the tree itself, `none` for `Missing`. -/

def treeKind : Option (Json Bytes) → Nat
  | some (.object _) => DOC_OBJECT
  | some (.array _) => DOC_ARRAY
  | some (.string _) => DOC_STR
  | some (.number _) => DOC_NUMBER
  | some (.bool _) => DOC_BOOL
  | some .null => DOC_NULL
  | none => DOC_MISSING

def treeGet (want : Bytes) : Option (Json Bytes) → Option (Json Bytes)
  | some (.object ms) => (ms.find? fun m => m.1 == want).map Prod.snd
  | _ => none

def treeAt (index : Int) : Option (Json Bytes) → Option (Json Bytes)
  | some (.array js) => if 0 ≤ index then js[index.toNat]? else none
  | _ => none

def treeStr : Option (Json Bytes) → Option Bytes
  | some (.string text) => some text
  | _ => none

def treeLen : Option (Json Bytes) → Nat
  | some (.object ms) => ms.length
  | some (.array js) => js.length
  | _ => 0

def treeKey (index : Int) : Option (Json Bytes) → Option Bytes
  | some (.object ms) => if 0 ≤ index then ms[index.toNat]?.map Prod.fst else none
  | _ => none

def treeKeys : Option (Json Bytes) → List Bytes
  | some (.object ms) => ms.map Prod.fst
  | _ => []

def treeElems : Option (Json Bytes) → List (Json Bytes)
  | some (.object ms) => ms.map Prod.snd
  | some (.array js) => js
  | _ => []

/-- One navigation: `elem i` takes entry `i` of the slice `elems` returns, and
`Missing` where the slice has no such entry. -/
inductive Access where
  | get (key : Bytes)
  | at (index : Int)
  | elem (index : Nat)

def tapeStep (input : Bytes) (nodes : List DocNode) : Access → Int → Option Int
  | .get key, node => docGet input nodes node key
  | .at index, node => docAt nodes node index
  | .elem index, node => (docElems nodes node).map fun handles => handles.getD index (-1)

def treeStep : Access → Option (Json Bytes) → Option (Json Bytes)
  | .get key, t => treeGet key t
  | .at index, t => treeAt index t
  | .elem index, t => (treeElems t)[index]?

def tapeWalk (input : Bytes) (nodes : List DocNode) : List Access → Int → Option Int
  | [], node => some node
  | access :: path, node => (tapeStep input nodes access node).bind (tapeWalk input nodes path)

def treeWalk : List Access → Option (Json Bytes) → Option (Json Bytes)
  | [], t => t
  | access :: path, t => treeWalk path (treeStep access t)

/-- Everything one handle can be asked agrees with the tree. -/
structure Agrees (input : Bytes) (nodes : List DocNode) (node : Int) (t : Option (Json Bytes)) : Prop where
  kind : docKind nodes node = treeKind t
  len : docLen nodes node = treeLen t
  asStr : docAsStr input nodes node = some (treeStr t)
  key : ∀ index, docKey input nodes node index = some (treeKey index t)
  keys : docKeys input nodes node = some (treeKeys t)
  elems : ∃ handles, docElems nodes node = some handles ∧ handles.length = (treeElems t).length

/-- The nodes `segs` stand on the tape from index `base` on. -/
def Placed (nodes : List DocNode) (base : Nat) (segs : List DocNode) : Prop :=
  segs <+: nodes.drop base

variable (nodes : List DocNode) {head : DocNode}

theorem placed_head {tail : List DocNode} (placed : Placed nodes base (head :: tail)) : nodes[base]? = some head := by
  obtain ⟨rest, shape⟩ := placed
  have first := congrArg List.head? shape
  rw [head?_drop] at first
  exact first.symm

theorem placed_split (seg segs : List DocNode) (placed : Placed nodes base (seg ++ segs)) :
    Placed nodes base seg ∧ Placed nodes (base + seg.length) segs := by
  obtain ⟨rest, shape⟩ := placed
  rw [append_assoc] at shape
  refine ⟨⟨segs ++ rest, shape⟩, rest, ?_⟩
  rw [← drop_drop, ← shape, drop_left]

theorem placed_tail (placed : Placed nodes base (head :: segs)) : Placed nodes (base + 1) segs :=
  (placed_split _ [head] segs placed).2

section Tape
variable (input : Bytes) (nodes : List DocNode)

def At (i : Nat) (j : Json Bytes) : Prop := ∃ n seg, Seg input n i seg j ∧ Placed nodes i seg

def Denotes : Int → Option (Json Bytes) → Prop
  | node, none => node = -1
  | node, some j => ∃ i : Nat, node = i ∧ At input nodes i j

variable {input}

theorem layer_next (P : Nat → List DocNode → Json Bytes → Prop) (holds : SegLayer input P base seg j) :
    ∃ head tail, seg = head :: tail ∧ head.next = base + seg.length := by
  cases holds with
  | null => exact ⟨_, _, rfl, rfl⟩
  | bool => exact ⟨_, _, rfl, rfl⟩
  | number => exact ⟨_, _, rfl, rfl⟩
  | string => exact ⟨_, _, rfl, rfl⟩
  | array segs js items => exact ⟨_, _, rfl, by simp only [length_cons]; omega⟩
  | object segs ms items => exact ⟨_, _, rfl, by simp only [length_cons]; omega⟩

variable {nodes}

theorem seg_next (holds : Seg input n base seg j) (placed : Placed nodes base seg) :
    ∃ head, nodes[base]? = some head ∧ head.next = base + seg.length := by
  obtain ⟨m, layer⟩ := seg_layer _ holds
  obtain ⟨head, tail, rfl, next⟩ := layer_next _ layer
  exact ⟨head, placed_head _ placed, next⟩

theorem items_skip (items : ItemSegs (Seg input n) base segs js) (placed : Placed nodes base segs)
    (k : Nat) (entry : js[k]? = some j) :
    ∃ i, skipNodes nodes k base = some i ∧ At input nodes i j := by
  induction items generalizing k with
  | nil base => simp at entry
  | cons base seg segs first js holds rest ih =>
    obtain ⟨here, behind⟩ := placed_split _ _ _ placed
    cases k with
    | zero =>
      cases entry
      exact ⟨base, rfl, n, seg, holds, here⟩
    | succ k =>
      obtain ⟨head, found, next⟩ := seg_next holds here
      obtain ⟨i, walked, stands⟩ := ih behind k entry
      refine ⟨i, ?_, stands⟩
      rw [skipNodes, found, bind_some, next, walked]

theorem items_elems (items : ItemSegs (Seg input n) base segs js) (placed : Placed nodes base segs) :
    ∃ handles, elemsLoop nodes true js.length base = some handles ∧
      List.Forall₂ (fun node j => Denotes input nodes node (some j)) handles js := by
  induction items with
  | nil base => exact ⟨[], rfl, .nil⟩
  | cons base seg segs first js holds rest ih =>
    obtain ⟨here, behind⟩ := placed_split _ _ _ placed
    obtain ⟨head, found, next⟩ := seg_next holds here
    obtain ⟨handles, walked, stand⟩ := ih behind
    refine ⟨base :: handles, ?_, .cons ⟨base, rfl, n, seg, holds, here⟩ stand⟩
    rw [length_cons, elemsLoop, if_pos rfl, bind_some, found, bind_some, next, walked, map_some]

theorem member_nodes (holds : Seg input n (base + 1) seg j)
    (placed : Placed nodes base (⟨DOC_STR, base + 1, a, b⟩ :: (seg ++ segs))) :
    nodes[base]? = some ⟨DOC_STR, base + 1, a, b⟩ ∧ At input nodes (base + 1) j ∧
      (∃ value, nodes[base + 1]? = some value ∧ value.next = base + 1 + seg.length) ∧
      Placed nodes (base + 1 + seg.length) segs := by
  obtain ⟨here, behind⟩ := placed_split _ _ _ (placed_tail _ placed)
  exact ⟨placed_head _ placed, ⟨n, seg, holds, here⟩, seg_next holds here, behind⟩

theorem members_get
    (items : MemberSegs input (Seg input n) base segs ms) (placed : Placed nodes base segs) :
    ∃ node, getLoop input nodes want ms.length base = some node ∧
      Denotes input nodes node ((ms.find? fun m => m.1 == want).map Prod.snd) := by
  induction items with
  | nil base => exact ⟨-1, rfl, rfl⟩
  | cons base a b key seg segs j ms inside name first rest ih =>
    obtain ⟨keyNode, stands, ⟨value, valueNode, next⟩, behind⟩ :=
      member_nodes first placed
    have same := stringEquals_body _ want name
    rw [length_cons, getLoop, keyNode, bind_some, rawSpan, if_pos inside, bind_some]
    by_cases wanted : key = want
    · rw [if_pos (same.mpr wanted), find?_cons_of_pos (by simp [wanted])]
      exact ⟨_, rfl, base + 1, rfl, stands⟩
    · rw [if_neg fun equal => wanted (same.mp equal), find?_cons_of_neg (by simp [wanted])]
      rw [valueNode, bind_some, next]
      exact ih behind

theorem writeStr_body (inside : n.a + n.b ≤ input.length)
    (body : Body ((input.drop n.a).take n.b) text) : docWriteStr input n = some (some text) := by
  rw [docWriteStr, rawSpan, if_pos inside, map_some]
  by_cases escaped : ((input.drop n.a).take n.b).contains backslash = true
  · rw [if_neg (not_not.mpr escaped), unescapedLen_body _ body, bind_some, unescapeTo_body _ body]
  · rw [if_pos escaped, body_plain _ body (by simpa using escaped)]

theorem members_key (items : MemberSegs input (Seg input n) base segs ms)
    (placed : Placed nodes base segs) (k : Nat) (entry : ms[k]?.map Prod.fst = some key) :
    ∃ mi kn, skipMembers nodes k base = some mi ∧ nodes[mi]? = some kn ∧
      docWriteStr input kn = some (some key) := by
  induction items generalizing k with
  | nil base => simp at entry
  | cons base a b name seg segs j ms inside body first rest ih =>
    obtain ⟨keyNode, -, ⟨value, valueNode, next⟩, behind⟩ :=
      member_nodes first placed
    cases k with
    | zero =>
      cases entry
      exact ⟨base, _, rfl, keyNode, writeStr_body inside body⟩
    | succ k =>
      obtain ⟨mi, kn, walked, found, written⟩ := ih behind k entry
      refine ⟨mi, kn, ?_, found, written⟩
      rw [skipMembers, keyNode, bind_some, valueNode, bind_some, next, walked]

theorem members_keys (items : MemberSegs input (Seg input n) base segs ms) (placed : Placed nodes base segs) :
    keysLoop input nodes ms.length base = some (ms.map Prod.fst) := by
  induction items with
  | nil base => rfl
  | cons base a b name seg segs j ms inside body first rest ih =>
    obtain ⟨keyNode, -, ⟨value, valueNode, next⟩, behind⟩ :=
      member_nodes first placed
    rw [length_cons, keysLoop, keyNode, bind_some, writeStr_body inside body, bind_some, bind_some,
      valueNode, bind_some, next, ih behind, map_some, map_cons]

theorem members_elems (items : MemberSegs input (Seg input n) base segs ms) (placed : Placed nodes base segs) :
    ∃ handles, elemsLoop nodes false ms.length base = some handles ∧
      List.Forall₂ (fun node j => Denotes input nodes node (some j)) handles (ms.map Prod.snd) := by
  induction items with
  | nil base => exact ⟨[], rfl, .nil⟩
  | cons base a b name seg segs j ms inside body first rest ih =>
    obtain ⟨keyNode, stands, ⟨value, valueNode, next⟩, behind⟩ :=
      member_nodes first placed
    obtain ⟨handles, walked, stand⟩ := ih behind
    refine ⟨(base + 1 : Nat) :: handles, ?_, .cons ⟨base + 1, rfl, stands⟩ stand⟩
    rw [length_cons, elemsLoop, if_neg (by decide), keyNode, map_some, bind_some,
      valueNode, bind_some, next, walked, map_some]

theorem docNode_at (i : Nat) : docNode nodes i = nodes[i]? := by
  rw [docNode, if_neg (by omega), Int.toNat_natCast]

/-- What the head node of a subtree holds, and for a container the walk over its items. -/
def Inner (input : Bytes) (nodes : List DocNode) (i n : Nat) (head : DocNode) : Json Bytes → Prop
  | .array js => head.a = js.length ∧
      ∃ segs, ItemSegs (Seg input n) (i + 1) segs js ∧ Placed nodes (i + 1) segs
  | .object ms => head.a = ms.length ∧
      ∃ segs, MemberSegs input (Seg input n) (i + 1) segs ms ∧ Placed nodes (i + 1) segs
  | .string text => docWriteStr input head = some (some text)
  | _ => True

theorem at_cases (stands : At input nodes i j) :
    ∃ n head, docNode nodes i = some head ∧ head.kind = treeKind (some j) ∧ Inner input nodes i n head j := by
  obtain ⟨n, seg, holds, placed⟩ := stands
  obtain ⟨m, layer⟩ := seg_layer _ holds
  rw [docNode_at]
  cases layer with
  | null => exact ⟨m, _, placed_head _ placed, rfl, trivial⟩
  | bool v => exact ⟨m, _, placed_head _ placed, rfl, trivial⟩
  | number a b inside => exact ⟨m, _, placed_head _ placed, rfl, trivial⟩
  | string a b text inside ok =>
    exact ⟨m, _, placed_head _ placed, rfl, writeStr_body inside ok⟩
  | array segs js items =>
    exact ⟨m, _, placed_head _ placed, rfl, rfl, segs, items, placed_tail _ placed⟩
  | object segs ms items =>
    exact ⟨m, _, placed_head _ placed, rfl, rfl, segs, items, placed_tail _ placed⟩

@[elab_as_elim] theorem handle_cases {motive : Int → Option (Json Bytes) → Prop}
    (denotes : Denotes input nodes node t) (missing : motive (-1) none)
    (stands : ∀ (i n : Nat) head j, docNode nodes i = some head → head.kind = treeKind (some j) →
      Inner input nodes i n head j → motive i (some j)) : motive node t := by
  cases t with
  | none =>
    cases denotes
    exact missing
  | some j =>
    obtain ⟨i, rfl, here⟩ := denotes
    obtain ⟨n, head, found, kind, inner⟩ := at_cases here
    exact stands i n head j found kind inner

theorem object_key {i : Nat} (found : docNode nodes i = some node) (kind : node.kind = DOC_OBJECT)
    (count : node.a = ms.length) (items : MemberSegs input (Seg input n) (i + 1) segs ms)
    (placed : Placed nodes (i + 1) segs) : docKey input nodes i index = some (treeKey index (some (.object ms))) := by
  rw [docKey, found]
  dsimp only [treeKey]
  by_cases inside : 0 ≤ index ∧ index < ms.length
  · have entry : index.toNat < ms.length := by omega
    obtain ⟨mi, kn, walked, here, written⟩ := members_key items placed
      _ (by rw [getElem?_eq_getElem entry, map_some])
    rw [if_neg (by simp only [kind, count]; omega), Int.toNat_natCast, walked, bind_some, here,
      bind_some, written, if_pos inside.1, getElem?_eq_getElem entry, map_some]
  · rw [if_pos (by simp only [kind, count]; omega)]
    split_ifs with sign
    · rw [getElem?_eq_none (by omega), map_none]
    · rfl

section Handle
variable (denotes : Denotes input nodes node t)
include denotes

theorem kind_agrees : docKind nodes node = treeKind t := by
  refine handle_cases denotes rfl fun i n head j found kind inner => ?_
  rw [docKind, found]
  exact kind

theorem len_agrees : docLen nodes node = treeLen t := by
  refine handle_cases denotes rfl fun i n head j found kind inner => ?_
  rw [docLen, found]
  dsimp only
  rw [kind]
  cases j with
  | array js => exact inner.1
  | object ms => exact inner.1
  | _ => rfl

theorem asStr_agrees : docAsStr input nodes node = some (treeStr t) := by
  refine handle_cases denotes rfl fun i n head j found kind inner => ?_
  rw [docAsStr, found]
  dsimp only
  rw [kind]
  cases j with
  | string text => exact inner
  | _ => rfl

theorem key_agrees (index : Int) : docKey input nodes node index = some (treeKey index t) := by
  refine handle_cases denotes rfl fun i n head j found kind inner => ?_
  cases j with
  | object ms =>
    obtain ⟨count, segs, items, placed⟩ := inner
    exact object_key found kind count items placed
  | _ =>
    rw [docKey, found]
    dsimp only
    rw [kind]
    rfl

theorem keys_agree : docKeys input nodes node = some (treeKeys t) := by
  refine handle_cases denotes rfl fun i n head j found kind inner => ?_
  rw [docKeys, found]
  dsimp only
  cases j with
  | object ms =>
    obtain ⟨count, segs, items, placed⟩ := inner
    have walked := members_keys items placed
    split_ifs with empty
    · have none : ms.length = 0 := count ▸ empty.resolve_left (not_not.mpr kind)
      rw [length_eq_zero_iff.mp none]
      rfl
    · rw [count, Int.toNat_natCast, walked]
      rfl
  | _ =>
    rw [kind]
    rfl

theorem elems_denote : ∃ handles, docElems nodes node = some handles ∧
    List.Forall₂ (fun node j => Denotes input nodes node (some j)) handles (treeElems t) := by
  refine handle_cases denotes ⟨[], rfl, .nil⟩ fun i n head j found kind inner => ?_
  rw [docElems, found]
  dsimp only
  rw [kind]
  cases j with
  | array js =>
    obtain ⟨count, segs, items, placed⟩ := inner
    obtain ⟨handles, walked, stand⟩ := items_elems items placed
    split_ifs with empty
    · have none : js.length = 0 := count ▸ empty.resolve_left fun other => other.2 rfl
      rw [length_eq_zero_iff.mp none]
      exact ⟨[], rfl, .nil⟩
    · exact ⟨handles, count ▸ walked, stand⟩
  | object ms =>
    obtain ⟨count, segs, items, placed⟩ := inner
    obtain ⟨handles, walked, stand⟩ := members_elems items placed
    split_ifs with empty
    · have none : ms.length = 0 := count ▸ empty.resolve_left fun other => other.1 rfl
      rw [length_eq_zero_iff.mp none]
      exact ⟨[], rfl, .nil⟩
    · exact ⟨handles, count ▸ walked, stand⟩
  | _ => exact ⟨[], rfl, .nil⟩

theorem get_denotes :
    ∃ node', docGet input nodes node want = some node' ∧ Denotes input nodes node' (treeGet want t) := by
  refine handle_cases denotes ⟨-1, rfl, rfl⟩ fun i n head j found kind inner => ?_
  rw [docGet, found]
  dsimp only
  rw [kind]
  cases j with
  | object ms =>
    obtain ⟨count, segs, items, placed⟩ := inner
    rw [if_pos (show treeKind (some (.object ms)) = DOC_OBJECT from rfl), count]
    exact members_get items placed
  | _ => exact ⟨-1, rfl, rfl⟩

theorem at_denotes :
    ∃ node', docAt nodes node index = some node' ∧ Denotes input nodes node' (treeAt index t) := by
  refine handle_cases denotes ⟨-1, rfl, rfl⟩ fun i n head j found kind inner => ?_
  rw [docAt, found]
  dsimp only
  rw [kind]
  cases j with
  | array js =>
    obtain ⟨count, segs, items, placed⟩ := inner
    by_cases inside : 0 ≤ index ∧ index < js.length
    · obtain ⟨j, entry⟩ : ∃ j, js[index.toNat]? = some j :=
        ⟨_, getElem?_eq_getElem (by omega)⟩
      obtain ⟨k, walked, stands⟩ := items_skip items placed _ entry
      rw [if_pos ⟨rfl, inside.1, count ▸ inside.2⟩, Int.toNat_natCast, walked, treeAt, if_pos inside.1,
        entry]
      exact ⟨k, rfl, k, rfl, stands⟩
    · have outside : treeAt index (some (.array js)) = none := by
        rw [treeAt]
        split_ifs with sign
        · exact getElem?_eq_none (by omega)
        · rfl
      rw [if_neg fun holds => inside ⟨holds.2.1, count ▸ holds.2.2⟩, outside]
      exact ⟨-1, rfl, rfl⟩
  | _ => exact ⟨-1, rfl, rfl⟩

theorem denotes_agrees : Agrees input nodes node t where
  kind := kind_agrees denotes
  len := len_agrees denotes
  asStr := asStr_agrees denotes
  key := key_agrees denotes
  keys := keys_agree denotes
  elems := by
    obtain ⟨handles, found, stand⟩ := elems_denote denotes
    exact ⟨handles, found, stand.length_eq⟩

end Handle

theorem entry_denotes
    (stand : List.Forall₂ (fun node j => Denotes input nodes node (some j)) handles js) (k : Nat) :
    Denotes input nodes (handles.getD k (-1)) js[k]? := by
  induction stand generalizing k with
  | nil => rfl
  | cons first rest ih =>
    cases k with
    | zero => exact first
    | succ k => exact ih k

theorem step_denotes (t : Option (Json Bytes)) (denotes : Denotes input nodes node t) :
    ∃ node', tapeStep input nodes access node = some node' ∧
      Denotes input nodes node' (treeStep access t) := by
  cases access with
  | get key => exact get_denotes denotes
  | «at» index => exact at_denotes denotes
  | elem index =>
    obtain ⟨handles, found, stand⟩ := elems_denote denotes
    refine ⟨handles.getD index (-1), ?_, entry_denotes stand _⟩
    rw [tapeStep, found, map_some]

theorem walk_denotes (path : List Access) (node : Int) (t : Option (Json Bytes))
    (denotes : Denotes input nodes node t) :
    ∃ node', tapeWalk input nodes path node = some node' ∧
      Denotes input nodes node' (treeWalk path t) := by
  induction path generalizing node t with
  | nil => exact ⟨node, rfl, denotes⟩
  | cons access path ih =>
    obtain ⟨middle, stepped, stands⟩ := step_denotes t denotes
    obtain ⟨node', walked, ends⟩ := ih middle (treeStep access t) stands
    refine ⟨node', ?_, ends⟩
    rw [tapeWalk, stepped, bind_some, walked]

end Tape

section Exact
variable (input : Bytes)

/-- Every node of `seg`, placed at `base`, heads the segment of a subtree and
points exactly past it. -/
def Exact (base : Nat) (seg : List DocNode) : Prop :=
  ∀ k node, seg[k]? = some node →
    ∃ m j sub, Seg input m (base + k) sub j ∧ sub <+: seg.drop k ∧ node.next = base + k + sub.length

theorem exact_append (seg segs : List DocNode) (first : Exact input base seg)
    (second : Exact input (base + seg.length) segs) : Exact input base (seg ++ segs) := by
  intro k node found
  by_cases early : k < seg.length
  · rw [getElem?_append_left early] at found
    obtain ⟨m, j, sub, holds, lies, next⟩ := first k node found
    refine ⟨m, j, sub, holds, ?_, next⟩
    rw [drop_append_of_le_length (Nat.le_of_lt early)]
    exact lies.trans (prefix_append _ _)
  · rw [getElem?_append_right (by omega)] at found
    obtain ⟨m, j, sub, holds, lies, next⟩ := second (k - seg.length) node found
    have place : base + seg.length + (k - seg.length) = base + k := by omega
    rw [place] at holds next
    refine ⟨m, j, sub, holds, ?_, next⟩
    rw [drop_append, drop_eq_nil_of_le (by omega), nil_append]
    exact lies

theorem exact_head (n : Nat) (head : DocNode) (segs : List DocNode) (j : Json Bytes)
    (holds : Seg input n base (head :: segs) j) (next : head.next = base + (head :: segs).length)
    (inner : Exact input (base + 1) segs) : Exact input base (head :: segs) := by
  intro k node found
  cases k with
  | zero =>
    cases found
    exact ⟨n, j, head :: segs, holds, prefix_rfl, next⟩
  | succ k =>
    obtain ⟨m, j', sub, holds', lies, next'⟩ := inner k node found
    rw [Nat.add_assoc base 1 k, Nat.add_comm 1 k] at holds' next'
    exact ⟨m, j', sub, holds', lies, next'⟩

theorem exact_nil : Exact input base [] := by
  intro k node found
  simp at found

section Layers
variable (P : Nat → List DocNode → Json Bytes → Prop)
  (step : ∀ base seg j, P base seg j → Exact input base seg)
include step

theorem items_exact (items : ItemSegs P base segs js) : Exact input base segs := by
  induction items with
  | nil base => exact exact_nil _
  | cons base seg segs j js first _ ih => exact exact_append _ _ _ (step _ _ _ first) ih

theorem members_exact (items : MemberSegs input P base segs ms) : Exact input base segs := by
  induction items with
  | nil base => exact exact_nil _
  | cons base a b key seg segs j ms inside name first _ ih =>
    -- a key node is a string's segment of its own
    have own : Exact input base [⟨DOC_STR, base + 1, a, b⟩] :=
      exact_head _ 0 _ [] (.string key) (.string base a b key inside name) rfl (exact_nil _)
    exact exact_append _ [_] _ own (exact_append _ _ _ (step _ _ _ first) ih)

theorem layer_exact
    (layer : SegLayer input P base seg j) (holds : Seg input n base seg j) : Exact input base seg := by
  cases layer with
  | null => exact exact_head _ n _ [] _ holds rfl (exact_nil _)
  | bool v => exact exact_head _ n _ [] _ holds rfl (exact_nil _)
  | number a b inside => exact exact_head _ n _ [] _ holds rfl (exact_nil _)
  | string a b text inside ok => exact exact_head _ n _ [] _ holds rfl (exact_nil _)
  | array segs js items =>
    exact exact_head _ n _ _ _ holds (by simp only [length_cons]; omega)
      (items_exact _ P step items)
  | object segs ms items =>
    exact exact_head _ n _ _ _ holds (by simp only [length_cons]; omega)
      (members_exact _ P step items)

end Layers

theorem seg_exact (base : Nat) (seg : List DocNode) (j : Json Bytes)
    (holds : Seg input n base seg j) : Exact input base seg := by
  induction n generalizing base seg j with
  | zero => exact layer_exact _ _ (fun _ _ _ impossible => impossible.elim) holds holds
  | succ n ih => exact layer_exact _ _ ih holds holds

end Exact

theorem tape_denotes {nodes : List DocNode}
    (holds : Seg src MAX_DEPTH 0 nodes tree) : Denotes src nodes 0 (some tree) :=
  ⟨0, rfl, MAX_DEPTH, nodes, holds, prefix_rfl⟩

/-- A document is accepted exactly when it is shorter than 4 GiB, valid UTF-8 and
one JSON value, surrogate escapes in pairs and no value inside more than 128
containers; then every sequence of accesses returns what the tree returns, and
every node's skip index is exact. -/
theorem tape_faithful (target : Utf8Validate.Target) (src : Bytes) :
    ((docParse target src).isSome = true ↔ src.length < 2 ^ 32 ∧ src.toByteArray.IsValidUTF8 ∧
      ∃ tree, Text Body MAX_DEPTH tree src) ∧
    ∀ tree nodes, Text Body MAX_DEPTH tree src → docParse target src = some nodes →
      (∀ path, ∃ node, tapeWalk src nodes path 0 = some node ∧
        Agrees src nodes node (treeWalk path (some tree))) ∧ Exact src 0 nodes := by
  constructor
  · constructor
    · intro accepted
      obtain ⟨nodes, parsed⟩ := isSome_iff_exists.mp accepted
      exact docParse_sound parsed
    · rintro ⟨small, valid, tree, text⟩
      obtain ⟨nodes, parsed, -⟩ := docParse_complete target small valid text
      exact isSome_iff_exists.mpr ⟨nodes, parsed⟩
  · intro tree nodes text parsed
    obtain ⟨small, valid, -⟩ := docParse_sound parsed
    obtain ⟨nodes', parsed', holds⟩ := docParse_complete target small valid text
    rw [parsed] at parsed'
    cases parsed'
    refine ⟨fun path => ?_, seg_exact src 0 nodes tree holds⟩
    obtain ⟨node, walked, denotes⟩ := walk_denotes path 0 (some tree) (tape_denotes holds)
    exact ⟨node, walked, denotes_agrees denotes⟩

/-- `k + 1` arrays inside one another. -/
def nestText : Nat → Bytes
  | 0 => [openBracket, closeBracket]
  | k + 1 => openBracket :: (nestText k ++ [closeBracket])

def nestTree : Nat → Json Bytes
  | 0 => .array []
  | k + 1 => .array [nestTree k]

theorem nest_value (k : Nat) : Value Body k (nestTree k) (nestText k) := by
  induction k with
  | zero => exact .emptyArray [] ws_nil
  | succ k ih =>
    have only := Elements.last [] (nestText k) [] (nestTree k) ws_nil ih ws_nil
    rw [nil_append, append_nil] at only
    exact .array _ _ only

theorem nest_text (k : Nat) : Text Body k (nestTree k) (nestText k) :=
  ⟨[], nestText k, [], ws_nil, nest_value k, ws_nil, by simp⟩

theorem nest_levels (k : Nat) : levels (nestTree k) = k + 1 := by
  induction k with
  | zero => rfl
  | succ k ih => simp [nestTree, levels, levelsOfItems, ih, Nat.add_comm]

theorem nest_length (k : Nat) : (nestText k).length = 2 * (k + 1) := by
  induction k with
  | zero => rfl
  | succ k ih =>
    simp only [nestText, length_cons, length_append, length_nil, ih]
    omega

theorem nest_ascii (k : Nat) : Utf8Validate.isAscii (nestText k) = true := by
  induction k with
  | zero => rfl
  | succ k ih =>
    simp only [Utf8Validate.isAscii] at ih
    simp only [nestText, Utf8Validate.isAscii, all_cons, all_append, ih, all_nil]
    rfl

theorem tape_faithful_empty_array :
    ∃ nodes, docParse .other (nestText 0) = some nodes ∧ Text Body MAX_DEPTH (nestTree 0) (nestText 0) ∧
      Exact (nestText 0) 0 nodes := by
  have text : Text Body MAX_DEPTH (nestTree 0) (nestText 0) :=
    ⟨[], _, [], ws_nil, .emptyArray [] ws_nil, ws_nil, rfl⟩
  obtain ⟨nodes, parsed, -⟩ := docParse_complete .other (by decide)
    (Utf8Validate.ascii_valid _ (nest_ascii 0)) text
  exact ⟨nodes, parsed, text, ((tape_faithful .other (nestText 0)).2 _ nodes text parsed).2⟩

/-- A lone surrogate escape spells a string of the grammar in no container at
all, and is rejected; 129 arrays inside one another are accepted. -/
theorem rfc_depth_reading_fails :
    (Text (fun raw (_ : Bytes) => RfcBody raw) 0 (.string [])
        [0x22, 0x5C, 0x75, 0x64, 0x38, 0x30, 0x30, 0x22] ∧
      ∀ target, docParse target [0x22, 0x5C, 0x75, 0x64, 0x38, 0x30, 0x30, 0x22] = none) ∧
    (levels (nestTree 128) = 129 ∧ Text Body 128 (nestTree 128) (nestText 128) ∧
      ∀ target, (docParse target (nestText 128)).isSome = true) := by
  refine ⟨⟨?_, fun target => ?_⟩, nest_levels 128, nest_text 128, fun target => ?_⟩
  · refine ⟨[], _, [], ws_nil, .scalar _ _ (.string [0x5C, 0x75, 0x64, 0x38, 0x30, 0x30] [] ?_), ws_nil, rfl⟩
    exact .unit 0x64 0x38 0x30 0x30 0xD800 [] (by decide) .nil
  · have stuck : value 8 17 0 [0x22, 0x5C, 0x75, 0x64, 0x38, 0x30, 0x30, 0x22] [] = none := by
      rw [value]
      decide
    unfold docParse
    split_ifs
    · rfl
    · exact bind_eq_none_iff.mpr fun _ found => by cases stuck.symm.trans found
    · rfl
  · have small : (nestText 128).length < 2 ^ 32 := by
      rw [nest_length]
      decide
    obtain ⟨nodes, parsed, -⟩ := docParse_complete target small
      (Utf8Validate.ascii_valid _ (nest_ascii 128)) (nest_text 128)
    exact isSome_iff_exists.mpr ⟨nodes, parsed⟩

end Align.JsonAccess
