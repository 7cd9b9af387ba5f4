import Align.Interface

/-! Comparison of two declarations by the shape of their source. A queue of pairs is
worked off and each node is tied to one partner, on both sides, so that a cycle ends at
a pair already seen. Pairs of earlier successful comparisons are taken on trust at the
root only: met anywhere else, such a pair starts the comparison again without them. -/
namespace Align.SourceShape
open List Interface

inductive Kind
  | struct | enum | tuple | tagged | fn | resource
  deriving DecidableEq

instance : Finite Kind :=
  @Finite.of_fintype _ (.ofList [.struct, .enum, .tuple, .tagged, .fn, .resource] fun kind => by
    cases kind <;> decide)

abbrev Id := Fin (2 ^ 32)

abbrev Node := Kind × Id

abbrev Pairs := List (Node × Node)

inductive Layout
  | aos | soa
  deriving DecidableEq

/-- The variants over one node, of a scalar or of a type, with their other data. -/
inductive NodeForm
  | struct | tuple | enum | tagged | fn | resource | resourceRef | soa | jsonScanner
  | structArray (length : Nat) | dynStructArray (layout : Layout) | dictEncoded (field : Nat)
  | dynFixedStructArray (length : Nat) | fixedStructArrayBuilder (length : Nat)
  deriving DecidableEq

def NodeForm.kind : NodeForm → Kind
  | tuple => .tuple
  | enum => .enum
  | tagged => .tagged
  | fn => .fn
  | resource | resourceRef => .resource
  | _ => .struct

/-- `Plain` is what holds no node and is compared as a whole. -/
inductive Scalar (Plain : Type)
  | node (form : NodeForm) (id : Id)
  | plain (data : Plain)

/-- The variants over one scalar, with their other data; `bare` are those of the scalar
itself. -/
inductive ElemForm
  | bare | option | box | slice | dynArray | arrayBuilder | task
  | array (length : Nat) | vec (lanes : Nat) | mask (lanes : Nat)
  | dynVecArray (lanes : Nat) | dynMaskArray (lanes : Nat) | dynFixedArray (length : Nat)
  | vecArrayBuilder (lanes : Nat) | maskArrayBuilder (lanes : Nat)
  | fixedArrayBuilder (length : Nat)
  deriving DecidableEq

inductive Ty (Plain : Type)
  | elem (form : ElemForm) (scalar : Scalar Plain)
  | result (ok err : Scalar Plain)

/-- A tagged type is an option or a result. The internal name of a struct is not
compared and left out, the three summaries of a function are compared as a whole. -/
inductive Shape (Plain : Type)
  | struct (sourceName : String) (align : Option Nat) (cRepr : Bool) (fields : List (String × Ty Plain))
  | enum (sourceName : String) (variants : List ((String × Nat) × List (Scalar Plain)))
  | resource (definition : Plain)
  | tuple (elems : List (Scalar Plain))
  | tagged (ty : Ty Plain)
  | fn (summaries : Plain) (params : List (ParamMode × Scalar Plain)) (ret : Ty Plain)

section Compare
variable {Plain α τ : Type} [DecidableEq Plain] [DecidableEq τ]

/-- `&&` of two comparisons: `none` is `false`, otherwise the pairs queued. -/
def both (first second : Option Pairs) : Option Pairs :=
  first.bind fun queued => second.map (queued ++ ·)

def all (equal : α → α → Option Pairs) : List α → List α → Option Pairs
  | [], [] => some []
  | a :: as, b :: bs => both (equal a b) (all equal as bs)
  | _, _ => none

def under (equal : α → α → Option Pairs) (a b : τ × α) : Option Pairs :=
  if a.1 = b.1 then equal a.2 b.2 else none

def scalarsEqual : Scalar Plain → Scalar Plain → Option Pairs
  | .node form a, .node form' b =>
    if form = form' then some [((form.kind, a), form'.kind, b)] else none
  | .plain a, .plain b => if a = b then some [] else none
  | _, _ => none

def typesEqual : Ty Plain → Ty Plain → Option Pairs
  | .elem form a, .elem form' b => if form = form' then scalarsEqual a b else none
  | .result a b, .result c d => both (scalarsEqual a c) (scalarsEqual b d)
  | _, _ => none

def shapesEqual : Shape Plain → Shape Plain → Option Pairs
  | .struct name align cRepr as, .struct name' align' cRepr' bs =>
    if name = name' ∧ align = align' ∧ cRepr = cRepr' then all (under typesEqual) as bs
    else none
  | .resource a, .resource b => if a = b then some [] else none
  | .enum name as, .enum name' bs =>
    if name = name' then all (under (all scalarsEqual)) as bs else none
  | .tuple as, .tuple bs => all scalarsEqual as bs
  | .tagged a, .tagged b => typesEqual a b
  | .fn summaries as a, .fn summaries' bs b =>
    if summaries = summaries' then both (all (under scalarsEqual) as bs) (typesEqual a b)
    else none
  | _, _ => none

/-- A type graph: the declaration of a node, if there is one. -/
abbrev View (Plain : Type) := Node → Option (Shape Plain)

def nodesEqual (view : View Plain) (left right : Node) : Option Pairs :=
  (view left).bind fun a => (view right).bind fun b => shapesEqual a b

structure Maps where
  leftToRight : Node → Option Node
  rightToLeft : Node → Option Node

def mapPair (maps : Maps) (left right : Node) : Option Maps :=
  if (∃ mapped ∈ maps.leftToRight left, mapped ≠ right) ∨
    ∃ mapped ∈ maps.rightToLeft right, mapped ≠ left
  then none
  else some ⟨Function.update maps.leftToRight left (some right),
    Function.update maps.rightToLeft right (some left)⟩

inductive Outcome
  | refused
  | restart
  | accepted (seen : Pairs)

theorem unseen_lt {seen : Pairs} (fresh : pair ∉ seen) :
    {p | p ∉ pair :: seen}.ncard < {p | p ∉ seen}.ncard := by
  apply Set.ncard_lt_ncard (ssubset_of_subset_not_subset ?_ ?_) (Set.toFinite _)
  · exact fun p unseen found => unseen (mem_cons_of_mem pair found)
  · exact fun within => within fresh mem_cons_self

/-- One pass of `run`. A pass ends, since there are finitely many pairs of nodes. -/
def pass (view : View Plain) (known : Pairs) (cacheEnabled : Bool) :
    Pairs → Pairs → Maps → Outcome
  | [], seen, _ => .accepted seen
  | pair :: pending, seen, maps =>
    match mapPair maps pair.1 pair.2 with
    | none => .refused
    | some maps =>
      if cacheEnabled ∧ pair ∈ known then
        if _first : seen ≠ [] ∨ pending ≠ [] then .restart
        else pass view known cacheEnabled pending (pair :: seen) maps
      else if _fresh : pair ∈ seen then pass view known cacheEnabled pending seen maps
      else match nodesEqual view pair.1 pair.2 with
        | none => .refused
        | some queued => pass view known cacheEnabled (pending ++ queued) (pair :: seen) maps
termination_by pending seen => ({p | p ∉ seen}.ncard, pending.length)
decreasing_by
  · exact Prod.Lex.left _ _ (unseen_lt (by simp_all))
  · exact Prod.Lex.right _ (Nat.lt_succ_self _)
  · exact Prod.Lex.left _ _ (unseen_lt _fresh)

def noMaps : Maps := ⟨fun _ => none, fun _ => none⟩

/-- The pairs seen by the pass that accepts. A second pass runs without the cache and
does not restart. -/
def run (view : View Plain) (known : Pairs) (root : Node × Node) : Option Pairs :=
  match pass view known true [root] [] noMaps with
  | .accepted seen => some seen
  | .refused => none
  | .restart =>
    match pass view known false [root] [] noMaps with
    | .accepted seen => some seen
    | _ => none

/-- The verdict, and the known pairs afterwards. -/
def sourceShapeEqual (view : View Plain) (left right : Node) (known : Pairs) : Bool × Pairs :=
  match run view known (left, right) with
  | some seen => (true, seen ++ known)
  | none => (false, known)

end Compare

section Reference
variable {Plain : Type}

def Scalar.label : Scalar Plain → Scalar Plain
  | node form _ => node form 0
  | plain data => plain data

def Scalar.children : Scalar Plain → List Node
  | node form id => [(form.kind, id)]
  | plain _ => []

def Ty.label : Ty Plain → Ty Plain
  | elem form a => elem form a.label
  | result a b => result a.label b.label

def Ty.children : Ty Plain → List Node
  | elem _ a => a.children
  | result a b => a.children ++ b.children

/-- A declaration with the nodes it names left open. -/
def Shape.label : Shape Plain → Shape Plain
  | struct name align cRepr fields => struct name align cRepr (fields.map (Prod.map id Ty.label))
  | enum name variants => enum name (variants.map (Prod.map id (map Scalar.label)))
  | resource definition => resource definition
  | tuple elems => tuple (elems.map Scalar.label)
  | tagged ty => tagged ty.label
  | fn summaries params ret => fn summaries (params.map (Prod.map id Scalar.label)) ret.label

/-- The nodes a declaration names, in order. -/
def Shape.children : Shape Plain → List Node
  | struct _ _ _ fields => fields.flatMap (Ty.children ·.2)
  | enum _ variants => variants.flatMap (flatMap Scalar.children ·.2)
  | resource _ => []
  | tuple elems => elems.flatMap Scalar.children
  | tagged ty => ty.children
  | fn _ params ret => params.flatMap (Scalar.children ·.2) ++ ret.children

def Reaches (view : View Plain) : Node → Node → Prop :=
  Relation.ReflTransGen fun a b => ∃ shape, view a = some shape ∧ b ∈ shape.children

/-- Both nodes are declared, with one label and related children. -/
def Matches (view : View Plain) (rel : Node → Node → Prop) (left right : Node) : Prop :=
  ∃ a b, view left = some a ∧ view right = some b ∧ a.label = b.label ∧
    Forall₂ rel a.children b.children

structure Matching (view : View Plain) (rel : Node → Node → Prop) : Prop where
  oneToOne : Relator.BiUnique rel
  edges : ∀ l r, rel l r → Matches view rel l r

/-- A one-to-one correspondence between the nodes reachable from the two roots. -/
structure Corresponds (view : View Plain) (left right : Node) (rel : Node → Node → Prop) : Prop
    extends Matching view rel where
  root : rel left right
  reachable : ∀ l r, rel l r → Reaches view left l ∧ Reaches view right r
  total : ∀ l, Reaches view left l → ∃ r, rel l r
  onto : ∀ r, Reaches view right r → ∃ l, rel l r

end Reference

section Exact
variable {Plain α τ : Type} [DecidableEq Plain] [DecidableEq τ]
  {equal : α → α → Option Pairs} {label : α → α} {children : α → List Node}

/-- Equal labels are accepted, with the children queued side by side. -/
structure Exact (equal : α → α → Option Pairs) (label : α → α) (children : α → List Node) :
    Prop where
  length : ∀ a, (children (label a)).length = (children a).length
  accepts : ∀ a b queued, equal a b = some queued ↔
    label a = label b ∧ zip (children a) (children b) = queued

theorem same_length (exact : Exact equal label children) (labels : label a = label b) :
    (children a).length = (children b).length := by
  rw [← exact.length a, labels, exact.length b]

theorem both_accepts (exact : Exact equal label children) {same : Prop}
    (accepts : ∀ queued, second = some queued ↔ same ∧ zip as bs = queued) :
    both (equal a b) second = some queued ↔ (label a = label b ∧ same) ∧
      zip (children a ++ as) (children b ++ bs) = queued := by
  simp only [both, Option.bind_eq_some_iff, Option.map_eq_some_iff, exact.accepts, accepts]
  constructor
  · rintro ⟨_, ⟨labels, rfl⟩, _, ⟨others, rfl⟩, rfl⟩
    exact ⟨⟨labels, others⟩, zip_append (same_length exact labels)⟩
  · rintro ⟨⟨labels, others⟩, rfl⟩
    exact ⟨_, ⟨labels, rfl⟩, _, ⟨others, rfl⟩, (zip_append (same_length exact labels)).symm⟩

theorem all_exact (exact : Exact equal label children) :
    Exact (all equal) (map label) (flatMap children) where
  length as := by simp [flatMap_map, length_flatMap, exact.length]
  accepts as := by
    induction as with
    | nil => rintro (_ | _) queued <;> simp [all]
    | cons a as ih =>
      rintro (_ | ⟨b, bs⟩) queued
      · simp [all]
      · simp only [all, both_accepts exact (ih bs), map_cons, cons.injEq, flatMap_cons]

theorem under_exact (exact : Exact equal label children) :
    Exact (under (τ := τ) equal) (Prod.map id label) (children ·.2) where
  length a := exact.length a.2
  accepts a b queued := by simp [under, exact.accepts, Prod.ext_iff, and_assoc]

theorem scalars_exact : Exact (α := Scalar Plain) scalarsEqual Scalar.label Scalar.children where
  length a := by cases a <;> rfl
  accepts a b queued := by
    cases a <;> cases b <;> simp +contextual [scalarsEqual, Scalar.label, Scalar.children]

theorem types_exact : Exact (α := Ty Plain) typesEqual Ty.label Ty.children where
  length a := by cases a <;> simp [Ty.label, Ty.children, scalars_exact.length]
  accepts a b queued := by
    cases a <;> cases b <;>
      simp [typesEqual, Ty.label, Ty.children, scalars_exact.accepts, and_assoc,
        both_accepts scalars_exact (scalars_exact.accepts _ _)]

theorem shapes_exact : Exact (α := Shape Plain) shapesEqual Shape.label Shape.children where
  length a := by
    cases a <;> simp [Shape.label, Shape.children, flatMap_map, length_flatMap,
      scalars_exact.length, types_exact.length]
  accepts a b queued := by
    cases a <;> cases b <;>
      simp +contextual [shapesEqual, Shape.label, Shape.children, types_exact.accepts, and_assoc,
        both_accepts (all_exact (under_exact scalars_exact)) (types_exact.accepts _ _),
        (all_exact scalars_exact).accepts, (all_exact (under_exact types_exact)).accepts,
        (all_exact (under_exact (all_exact scalars_exact))).accepts]

theorem matches_iff {view : View Plain} : Matches view rel left right ↔
    ∃ queued, nodesEqual view left right = some queued ∧ ∀ pair ∈ queued, rel pair.1 pair.2 := by
  simp only [nodesEqual, Option.bind_eq_some_iff, shapes_exact.accepts]
  constructor
  · rintro ⟨a, b, atLeft, atRight, labels, related⟩
    exact ⟨_, ⟨a, atLeft, b, atRight, labels, rfl⟩, fun pair => forall₂_zip related⟩
  · rintro ⟨_, ⟨a, atLeft, b, atRight, labels, rfl⟩, related⟩
    refine ⟨a, b, atLeft, atRight, labels, forall₂_iff_zip.mpr ⟨same_length shapes_exact labels, ?_⟩⟩
    exact fun queued => related _ queued

end Exact

section Correspondence
variable {Plain : Type} {view : View Plain} {rel : Node → Node → Prop} {left right : Node}

theorem partner (edges : ∀ l r, rel l r → Matches view rel l r) (root : rel left right)
    (path : Reaches view left l) : ∃ r, rel l r ∧ Reaches view right r := by
  induction path with
  | refl => exact ⟨right, root, .refl⟩
  | tail _ edge ih =>
    obtain ⟨r, found, path⟩ := ih
    obtain ⟨shape, declared, child⟩ := edge
    obtain ⟨a, b, atLeft, atRight, -, related⟩ := edges _ _ found
    obtain rfl := Option.some.inj (declared.symm.trans atLeft)
    obtain ⟨i, bound, rfl⟩ := getElem_of_mem child
    have bound' := related.length_eq ▸ bound
    exact ⟨_, related.get bound bound', path.tail ⟨b, atRight, getElem_mem bound'⟩⟩

theorem matches_flip (found : Matches view rel left right) : Matches view (flip rel) right left := by
  obtain ⟨a, b, atLeft, atRight, labels, related⟩ := found
  exact ⟨b, a, atRight, atLeft, labels.symm, related.flip⟩

def Alike (view : View Plain) (pair : Node × Node) : Prop :=
  ∃ rel, Matching view rel ∧ rel pair.1 pair.2

/-- A matching that relates the roots is cut down to what they reach. -/
theorem alike_iff : Alike view (left, right) ↔ ∃ rel, Corresponds view left right rel := by
  constructor
  · rintro ⟨rel, ⟨⟨leftUnique, rightUnique⟩, edges⟩, root⟩
    refine ⟨fun l r => rel l r ∧ Reaches view left l ∧ Reaches view right r, ⟨⟨?_, ?_⟩, ?_⟩,
      ⟨root, .refl, .refl⟩, fun _ _ => And.right, ?_, ?_⟩
    · exact fun _ _ _ first second => leftUnique first.1 second.1
    · exact fun _ _ _ first second => rightUnique first.1 second.1
    · rintro l r ⟨found, toLeft, toRight⟩
      obtain ⟨a, b, atLeft, atRight, labels, related⟩ := edges l r found
      refine ⟨a, b, atLeft, atRight, labels, forall₂_iff_zip.mpr ⟨related.length_eq, ?_⟩⟩
      intro l' r' child
      obtain ⟨childLeft, childRight⟩ := of_mem_zip child
      exact ⟨forall₂_zip related child, toLeft.tail ⟨a, atLeft, childLeft⟩,
        toRight.tail ⟨b, atRight, childRight⟩⟩
    · intro l path
      obtain ⟨r, found, path'⟩ := partner edges root path
      exact ⟨r, found, path, path'⟩
    · intro r path
      obtain ⟨l, found, path'⟩ := partner (fun l r found => matches_flip (edges r l found)) root path
      exact ⟨l, found, path', path⟩
  · rintro ⟨rel, corresponds⟩
    exact ⟨rel, corresponds.toMatching, corresponds.root⟩

end Correspondence

section Run
variable {Plain : Type} {view : View Plain} {known pending seen pairs : Pairs} {maps : Maps}
  {cacheEnabled : Bool}

/-- The maps hold what is seen. -/
def Synced (seen : Pairs) (maps : Maps) : Prop :=
  ∀ pair, (maps.leftToRight pair.1 = some pair.2 ↔ pair ∈ seen) ∧
    (maps.rightToLeft pair.2 = some pair.1 ↔ pair ∈ seen)

theorem update_some {f : Node → Option Node} (agrees : ∀ v ∈ f key, v = value) :
    Function.update f key (some value) k = some v ↔ k = key ∧ v = value ∨ f k = some v := by
  rcases eq_or_ne k key with rfl | other
  · rw [Function.update_self]
    constructor
    · rintro ⟨⟩
      exact .inl ⟨rfl, rfl⟩
    · rintro (⟨-, rfl⟩ | found)
      · rfl
      · rw [agrees v found]
  · simp [other]

theorem mapPair_synced (synced : Synced seen maps)
    (mapped : mapPair maps pair.1 pair.2 = some extended) : Synced (pair :: seen) extended := by
  obtain ⟨⟨toRight, toLeft⟩, rfl⟩ : ((∀ r ∈ maps.leftToRight pair.1, r = pair.2) ∧
    ∀ l ∈ maps.rightToLeft pair.2, l = pair.1) ∧ _ = extended := by simpa [mapPair] using mapped
  intro other
  obtain ⟨right, left⟩ := synced other
  rw [update_some toRight, update_some toLeft, right, left, mem_cons, @Prod.ext_iff _ _ other]
  exact ⟨.rfl, or_congr_left and_comm⟩

theorem mapPair_some (synced : Synced seen maps) (unique : Relator.BiUnique rel)
    (before : ∀ pair ∈ seen, rel pair.1 pair.2) (here : rel left right) :
    mapPair maps left right ≠ none := by
  rw [mapPair, if_neg]
  · exact Option.some_ne_none _
  · rintro (⟨r, found, other⟩ | ⟨l, found, other⟩)
    · exact other (unique.2 (before (left, r) ((synced _).1.mp found)) here)
    · exact other (unique.1 (before (l, right) ((synced _).2.mp found)) here)

/-- What a pass says of the pairs seen and pending when it starts. -/
def Settles (view : View Plain) (cacheEnabled : Bool) (pairs : Pairs) : Outcome → Prop
  | .accepted final => (∀ pair ∈ final, Alike view pair) ∧ pairs ⊆ final
  | .refused => ∀ rel, Matching view rel → ¬ ∀ pair ∈ pairs, rel pair.1 pair.2
  | .restart => cacheEnabled = true

theorem settles_mono {outcome : Outcome} (settles : Settles view cacheEnabled more outcome)
    (fewer : pairs ⊆ more)
    (keeps : ∀ rel, Matching view rel → (∀ pair ∈ pairs, rel pair.1 pair.2) → ∀ pair ∈ more, rel pair.1 pair.2) :
    Settles view cacheEnabled pairs outcome := by
  cases outcome with
  | refused => exact fun rel matching related => settles rel matching (keeps rel matching related)
  | restart => exact settles
  | accepted final => exact ⟨settles.1, Subset.trans fewer settles.2⟩

def Closed (view : View Plain) (seen pairs : Pairs) : Prop :=
  ∀ pair ∈ seen, Matches view (fun l r => (l, r) ∈ pairs) pair.1 pair.2

theorem closed_mono (closed : Closed view seen pairs) (fewer : pairs ⊆ more) : Closed view seen more := by
  intro pair found
  obtain ⟨a, b, atLeft, atRight, labels, related⟩ := closed pair found
  exact ⟨a, b, atLeft, atRight, labels, related.imp fun _ _ child => fewer child⟩

theorem closed_alike (synced : Synced seen maps) (closed : Closed view seen seen) (found : pair ∈ seen) :
    Alike view pair := by
  refine ⟨fun l r => (l, r) ∈ seen, ⟨⟨?_, ?_⟩, fun l r => closed (l, r)⟩, found⟩
  · intro l r l' first second
    exact Option.some.inj (((synced _).2.mpr first).symm.trans ((synced _).2.mpr second))
  · intro l r r' first second
    exact Option.some.inj (((synced _).1.mpr first).symm.trans ((synced _).1.mpr second))

variable [DecidableEq Plain]

/-- Each pair popped was seen before, or is seen from now on and its children join the
queue. -/
theorem pass_settles (trusted : ∀ pair ∈ known, Alike view pair) (synced : Synced seen maps)
    (closed : Closed view seen (seen ++ pending)) :
    Settles view cacheEnabled (seen ++ pending) (pass view known cacheEnabled pending seen maps) := by
  fun_induction pass view known cacheEnabled pending seen maps with
  | case1 seen maps =>
    rw [append_nil] at closed ⊢
    exact ⟨fun pair => closed_alike synced closed, Subset.refl _⟩
  | case2 pair pending seen maps refused =>
    intro rel matching related
    obtain ⟨before, rest⟩ := forall_mem_append.mp related
    exact mapPair_some synced matching.oneToOne before (rest pair mem_cons_self) refused
  | case3 pair pending seen _ maps _ hit => exact hit.1
  | case4 pair pending seen _ maps _ hit alone =>
    obtain ⟨rfl, rfl⟩ : seen = [] ∧ pending = [] := by simpa using alone
    rw [pass]
    exact ⟨forall_mem_singleton.mpr (trusted pair hit.2), Subset.refl _⟩
  | case5 pair pending seen _ maps mapped _ before ih =>
    have fewer : seen ++ pair :: pending ⊆ seen ++ pending := by simp [before]
    have synced' : Synced seen maps := by
      intro other
      have extended := mapPair_synced synced mapped other
      rwa [mem_cons, or_iff_right_of_imp fun same => same ▸ before] at extended
    refine settles_mono (ih synced' (closed_mono closed fewer)) fewer fun rel _ related => ?_
    obtain ⟨before, rest⟩ := forall_mem_append.mp related
    exact forall_mem_append.mpr ⟨before, (forall_mem_cons.mp rest).2⟩
  | case6 pair pending seen _ maps _ _ fresh refused =>
    intro rel matching related
    obtain ⟨queued, equal, -⟩ := matches_iff.mp (matching.edges _ _ (related pair (by simp)))
    cases refused.symm.trans equal
  | case7 pair pending seen _ maps mapped _ fresh queued equal ih =>
    have fewer : seen ++ pair :: pending ⊆ (pair :: seen) ++ (pending ++ queued) := by
      intro other
      simp only [mem_append, mem_cons]
      tauto
    have edges : Matches view (fun l r => (l, r) ∈ pair :: seen ++ (pending ++ queued)) pair.1 pair.2 :=
      matches_iff.mpr ⟨queued, equal, fun other found => mem_append_right _ (mem_append_right _ found)⟩
    refine settles_mono (ih (mapPair_synced synced mapped)
      (forall_mem_cons.mpr ⟨edges, closed_mono closed fewer⟩)) fewer fun rel matching related => ?_
    obtain ⟨before, rest⟩ := forall_mem_append.mp related
    obtain ⟨here, rest⟩ := forall_mem_cons.mp rest
    obtain ⟨_, same, children⟩ := matches_iff.mp (matching.edges _ _ here)
    obtain rfl := Option.some.inj (same.symm.trans equal)
    exact forall_mem_append.mpr ⟨forall_mem_cons.mpr ⟨here, before⟩,
      forall_mem_append.mpr ⟨rest, children⟩⟩

theorem run_settles (root : Node × Node) (trusted : ∀ pair ∈ known, Alike view pair) :
    (run view known root = none → ¬ Alike view root) ∧
      ∀ final ∈ run view known root, (∀ pair ∈ final, Alike view pair) ∧ root ∈ final := by
  have settles : ∀ on, Settles view on [root] (pass view known on [root] [] noMaps) := fun on =>
    pass_settles trusted (by simp [Synced, noMaps]) (forall_mem_nil _)
  have refuses {on : Bool} (settled : Settles view on [root] .refused) : ¬ Alike view root :=
    fun ⟨rel, matching, related⟩ => settled rel matching (forall_mem_singleton.mpr related)
  have first := settles true
  have second := settles false
  unfold run
  generalize pass view known true [root] [] noMaps = one at first ⊢
  generalize pass view known false [root] [] noMaps = two at second ⊢
  cases one with
  | refused => exact ⟨fun _ => refuses first, nofun⟩
  | accepted final => simpa [Settles] using first
  | restart =>
    cases two with
    | refused => exact ⟨fun _ => refuses second, nofun⟩
    | restart => cases second
    | accepted final => simpa [Settles] using second

/-- The known pairs after a list of comparisons, the latest first. -/
def knownShapes (view : View Plain) : Pairs → Pairs :=
  foldr (fun pair known => (sourceShapeEqual view pair.1 pair.2 known).2) []

theorem known_alike (view : View Plain) (earlier : Pairs) :
    ∀ pair ∈ knownShapes view earlier, Alike view pair := by
  induction earlier with
  | nil => exact forall_mem_nil _
  | cons pair earlier ih =>
    have settled := run_settles pair ih
    simp only [knownShapes, foldr_cons, sourceShapeEqual]
    split
    next seen accepted => exact forall_mem_append.mpr ⟨(settled.2 _ accepted).1, ih⟩
    next => exact ih

theorem equal_iff (left right : Node) (trusted : ∀ pair ∈ known, Alike view pair) :
    (sourceShapeEqual view left right known).1 = true ↔ Alike view (left, right) := by
  obtain ⟨refuses, accepts⟩ := run_settles (left, right) trusted
  unfold sourceShapeEqual
  rcases ran : run view known (left, right) with _ | final
  · simp [refuses ran]
  · obtain ⟨alike, found⟩ := accepts final ran
    simp [alike _ found]

/-- The verdict is the existence of a correspondence, whatever was compared before. -/
theorem source_shape_equal_exact (view : View Plain) (earlier : Pairs) (left right : Node) :
    ((sourceShapeEqual view left right (knownShapes view earlier)).1 = true ↔
      ∃ rel, Corresponds view left right rel) ∧
    (sourceShapeEqual view left right (knownShapes view earlier)).1 =
      (sourceShapeEqual view left right []).1 := by
  have cached := equal_iff left right (known_alike view earlier)
  have plain := equal_iff left right (known_alike view [])
  exact ⟨cached.trans alike_iff, Bool.eq_iff_iff.mpr (cached.trans plain.symm)⟩

end Run
end Align.SourceShape
