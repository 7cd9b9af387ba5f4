import Align.Delimiting
import Align.HttpFields

/-! Cookies of the web package. `build` writes a `Set-Cookie` value and refuses what
would break its grammar, `get` reads a value out of a `Cookie` header. The two split
their texts by different rules: a value or a path may hold `=`, blanks and texts that
look like attributes, but never the `;` both rely on. -/
namespace Align.Cookies
open Http (Bytes ascii)
open Delimiting List

def semi : UInt8 := 59

def eq : UInt8 := 61

def sp : UInt8 := 32

/-- One turn of the loop of `get` for each `;`, over what remains of the header. -/
def getFrom (name remaining : Bytes) : Bytes :=
  let here := remaining.dropWhile (· == sp)
  let pair := here.takeWhile (· != semi)
  let key := pair.takeWhile (· != eq)
  if key = name then
    if pair.length ≤ key.length then [] else pair.drop (key.length + 1)
  else if _last : here.length ≤ pair.length then []
  else getFrom name (here.drop (pair.length + 1))
termination_by remaining.length
decreasing_by
  have skipped : here.length ≤ remaining.length := (dropWhile_sublist _).length_le
  rw [length_drop]
  change here.length - (pair.length + 1) < remaining.length
  omega

def get (header name : Bytes) : Bytes := getFrom name header

structure CookieOpts where
  path : Bytes
  maxAge : Int
  httpOnly : Bool
  secure : Bool
  sameSite : Bytes
deriving DecidableEq, Repr

def headerSafe : Bytes → Bool
  | [] => true
  | c :: rest =>
    if c < 32 || c == 127 then false
    else if c == semi then false
    else headerSafe rest

/-- `none` is `Err(Error.Invalid)`. -/
def build (name value : Bytes) (o : CookieOpts) : Option Bytes :=
  if !headerSafe name || !headerSafe value then none
  else if !headerSafe o.path || !headerSafe o.sameSite then none
  else if name.any (fun c => c == eq || c == sp) then none
  else
    let b := name ++ ascii "=" ++ value
    let b := if 0 < o.path.length then b ++ ascii "; Path=" ++ o.path else b
    let b := if 0 ≤ o.maxAge then b ++ ascii "; Max-Age=" ++ ascii o.maxAge.toNat.repr else b
    let b := if o.httpOnly then b ++ ascii "; HttpOnly" else b
    let b := if o.secure then b ++ ascii "; Secure" else b
    let b := if 0 < o.sameSite.length then b ++ ascii "; SameSite=" ++ o.sameSite else b
    some b

/-- What the options ask for: a path, an age, the two flags and a site policy. -/
def effective (o : CookieOpts) : Option Bytes × Option Nat × Bool × Bool × Option Bytes :=
  (if o.path = [] then none else some o.path, if 0 ≤ o.maxAge then some o.maxAge.toNat else none,
    o.httpOnly, o.secure, if o.sameSite = [] then none else some o.sameSite)

/-- Every attribute with the text that stands behind its name when it is requested. -/
def fields (o : CookieOpts) : List (Bytes × Option Bytes) :=
  [(ascii " Path=", (effective o).1), (ascii " Max-Age=", (effective o).2.1.map fun age => ascii age.repr),
    (ascii " HttpOnly", if o.httpOnly then some [] else none),
    (ascii " Secure", if o.secure then some [] else none), (ascii " SameSite=", (effective o).2.2.2.2)]

def requested (o : CookieOpts) : List Bytes := tagged (fields o)

def pair (name value : Bytes) : Bytes := name ++ eq :: value

structure Accepted (name value : Bytes) (o : CookieOpts) : Prop where
  plain : semi ∉ name
  value : semi ∉ value
  path : semi ∉ o.path
  sameSite : semi ∉ o.sameSite
  noEq : eq ∉ name
  noSp : sp ∉ name

theorem headerSafe_no_semi (safe : headerSafe s = true) : semi ∉ s := by
  induction s with
  | nil => exact not_mem_nil
  | cons c rest ih =>
    rw [headerSafe, Bool.if_false_left, Bool.and_eq_true, Bool.if_false_left, Bool.and_eq_true] at safe
    have other : semi ≠ c := fun same => by simp [same] at safe
    rw [mem_cons, not_or]
    exact ⟨other, ih safe.2.2⟩

theorem build_some (built : build name value o = some text) :
    Accepted name value o ∧ text = joined semi (pair name value :: requested o) := by
  rw [build, Option.ite_none_left_eq_some, Option.ite_none_left_eq_some, Option.ite_none_left_eq_some] at built
  simp only [Bool.or_eq_true, Bool.not_eq_true', not_or, Bool.not_eq_false, List.any_eq_true, beq_iff_eq, not_exists,
    not_and] at built
  rcases built with ⟨⟨name', value'⟩, ⟨path, site⟩, clean, written⟩
  have accepted : Accepted name value o :=
    { plain := headerSafe_no_semi name', value := headerSafe_no_semi value', path := headerSafe_no_semi path
      sameSite := headerSafe_no_semi site, noEq := fun inside => (clean eq inside).1 rfl
      noSp := fun inside => (clean sp inside).2 rfl }
  refine ⟨accepted, ?_⟩
  -- Every attribute is written with the `;` that splits it off in front.
  have marks : ascii "=" = [eq] ∧ ascii "; Path=" = semi :: ascii " Path=" ∧
      ascii "; Max-Age=" = semi :: ascii " Max-Age=" ∧ ascii "; HttpOnly" = semi :: ascii " HttpOnly" ∧
      ascii "; Secure" = semi :: ascii " Secure" ∧ ascii "; SameSite=" = semi :: ascii " SameSite=" := by decide
  rw [← Option.some.inj written, joined, requested, fields, effective, pair]
  by_cases path : o.path = [] <;> by_cases age : 0 ≤ o.maxAge <;> by_cases site : o.sameSite = [] <;>
    cases o.httpOnly <;> cases o.secure <;> simp [path, age, site, tagged, marks, length_pos_iff]

theorem digit_le {n : Nat} (inside : c ∈ n.repr.toList) : c.toNat ≤ 57 := by
  have digit := Nat.isDigit_of_mem_toDigits (by decide) (by decide) (Nat.toList_repr ▸ inside)
  rw [Char.isDigit, Bool.and_eq_true, decide_eq_true_eq, decide_eq_true_eq] at digit
  exact digit.2

theorem decimal_unique {n m : Nat} (same : ascii n.repr = ascii m.repr) : n = m := by
  have back : ∀ n : Nat, (ascii n.repr).map (fun b => Char.ofNat b.toNat) = n.repr.toList := by
    intro n
    rw [ascii, List.map_map]
    refine (map_congr_left fun c inside => ?_).trans (List.map_id _)
    have small : c.toNat < 256 := Nat.lt_of_le_of_lt (digit_le inside) (by decide)
    rw [Function.comp_apply, UInt8.toNat_ofNat', Nat.mod_eq_of_lt small, Char.ofNat_toNat, id]
  have digits : Nat.toDigits 10 n = Nat.toDigits 10 m := by
    rw [← Nat.toList_repr, ← Nat.toList_repr, ← back n, ← back m, same]
  rw [← Nat.ofDigitChars_toDigits (b := 10) (n := n) (by decide) (by decide), digits,
    Nat.ofDigitChars_toDigits (by decide) (by decide)]

theorem decimal_no_semi (n : Nat) : semi ∉ ascii n.repr := by
  intro inside
  rcases List.mem_map.mp inside with ⟨c, mem, same⟩
  have small := digit_le mem
  have code := congrArg UInt8.toNat same
  rw [UInt8.toNat_ofNat', Nat.mod_eq_of_lt (by omega), show semi.toNat = 59 from rfl] at code
  omega

theorem requested_no_semi (accepted : Accepted name value o) : ∀ part ∈ requested o, semi ∉ part := by
  have clean : ∀ field ∈ fields o, semi ∉ field.1 ∧ ∀ text, field.2 = some text → semi ∉ text := by
    have tags : semi ∉ ascii " Path=" ∧ semi ∉ ascii " Max-Age=" ∧ semi ∉ ascii " HttpOnly" ∧
      semi ∉ ascii " Secure" ∧ semi ∉ ascii " SameSite=" := by decide
    simp [fields, effective, tags, decimal_no_semi, accepted.path, accepted.sameSite]
  intro part inside
  rcases mem_filterMap.mp inside with ⟨field, mem, here⟩
  rcases Option.map_eq_some_iff.mp here with ⟨text, present, rfl⟩
  rw [mem_append, not_or]
  exact ⟨(clean field mem).1, (clean field mem).2 text present⟩

theorem pair_no_semi (accepted : Accepted name value o) : semi ∉ pair name value := by
  have other : semi ≠ eq := by decide
  simp [pair, accepted.plain, accepted.value, other]

theorem build_splits (built : build name value o = some text) :
    text.splitOn semi = pair name value :: requested o := by
  rcases build_some built with ⟨accepted, rfl⟩
  rw [← intercalate_eq_joined]
  exact splitOn_intercalate semi (forall_mem_cons.mpr ⟨pair_no_semi accepted, requested_no_semi accepted⟩)
    (cons_ne_nil _ _)

theorem build_unique (built : build name value o = some text) (built' : build name' value' o' = some text) :
    name = name' ∧ value = value' ∧ effective o = effective o' := by
  have accepted := (build_some built).1
  have accepted' := (build_some built').1
  have parts := List.cons.inj ((build_splits built).symm.trans (build_splits built'))
  have halves := before_unique accepted.noEq accepted'.noEq parts.1
  have apart : [ascii " Path=", ascii " Max-Age=", ascii " HttpOnly", ascii " Secure", ascii " SameSite="].Pairwise
      fun tag other => ¬ tag <+: other ∧ ¬ other <+: tag := by decide
  have same : fields o = fields o' := tagged_unique rfl apart parts.2
  simp only [fields, List.cons.injEq, Prod.mk.injEq, true_and, and_true] at same
  rcases same with ⟨path, age, http, secure, site⟩
  have ages := Option.map_injective (fun _ _ => decimal_unique) age
  have flags : ∀ flag flag' : Bool, (if flag then some [] else none) = (if flag' then some ([] : Bytes) else none) →
      flag = flag' := by decide
  exact ⟨halves.1, halves.2,
    Prod.ext path (Prod.ext ages (Prod.ext (flags _ _ http) (Prod.ext (flags _ _ secure) site)))⟩

example : build (ascii "sid") (ascii "a=b, Path=/") { path := [], maxAge := 0, httpOnly := true, secure := false, sameSite := ascii "Lax" } =
    some (ascii "sid=a=b, Path=/; Max-Age=0; HttpOnly; SameSite=Lax") := by decide

theorem getFrom_pair (accepted : Accepted name value o) (lead : ∀ c ∈ spaces, (c == sp) = true)
    (ends : Ends (· = semi) rest) :
    getFrom wanted (spaces ++ (pair name value ++ rest)) =
      if name = wanted then value else if rest = [] then [] else getFrom wanted rest.tail := by
  have skip : (spaces ++ (pair name value ++ rest)).dropWhile (· == sp) = pair name value ++ rest := by
    rw [dropWhile_append_of_pos lead, pair]
    cases name with
    | nil => rfl
    | cons c name => exact dropWhile_cons_of_neg fun same => accepted.noSp (by simp [← eq_of_beq same])
  have taken : (pair name value ++ rest).takeWhile (· != semi) = pair name value := by
    have free : ∀ c ∈ pair name value, (c != semi) = true :=
      fun c inside => bne_iff_ne.mpr fun same => pair_no_semi accepted (same ▸ inside)
    rw [takeWhile_append_of_pos free]
    cases rest with
    | nil => exact append_nil _
    | cons c rest => rw [takeWhile_cons_of_neg (by simp [ends c rfl]), append_nil]
  have key : (pair name value).takeWhile (· != eq) = name := by
    have free : ∀ c ∈ name, (c != eq) = true :=
      fun c inside => bne_iff_ne.mpr fun same => accepted.noEq (same ▸ inside)
    rw [pair, takeWhile_append_of_pos free, takeWhile_cons_of_neg (by decide), append_nil]
  rw [getFrom]
  simp only [skip, taken, key]
  by_cases found : name = wanted
  · have longer : ¬ (pair name value).length ≤ name.length := by simp [pair]
    rw [if_pos found, if_pos found, if_neg longer, pair, ← drop_drop, drop_left]
    rfl
  · rw [if_neg found, if_neg found]
    cases rest with
    | nil => simp
    | cons c rest =>
      rw [dif_neg (by simp), if_neg (cons_ne_nil c rest), ← drop_drop, drop_left, tail_cons]
      rfl

/-- A `Cookie` header carries the pairs of its cookies with `; ` between them. -/
def header (cookies : List (Bytes × Bytes × CookieOpts)) : Bytes :=
  (ascii "; ").intercalate (cookies.map fun c => pair c.1 c.2.1)

theorem getFrom_header (accepted : ∀ c ∈ cookies, Accepted c.1 c.2.1 c.2.2)
    (lead : ∀ c ∈ spaces, (c == sp) = true) :
    getFrom wanted (spaces ++ header cookies) =
      ((cookies.find? fun c => c.1 = wanted).map fun c => c.2.1).getD [] := by
  induction cookies generalizing spaces with
  | nil =>
    have blank : spaces.dropWhile (· == sp) = [] := dropWhile_eq_nil_iff.mpr lead
    rw [getFrom]
    simp [header, blank]
  | cons c cookies ih =>
    have here := forall_mem_cons.mp accepted
    cases cookies with
    | nil =>
      have only : getFrom wanted (spaces ++ (pair c.1 c.2.1 ++ [])) = _ := getFrom_pair here.1 lead (ends_nil _)
      rw [append_nil, if_pos rfl] at only
      rw [header, map_cons, map_nil, intercalate_singleton, only]
      by_cases found : c.1 = wanted <;> simp [found]
    | cons next cookies =>
      have joins : header (c :: next :: cookies) = pair c.1 c.2.1 ++ semi :: ([sp] ++ header (next :: cookies)) := by
        rfl
      rw [joins, getFrom_pair here.1 lead (ends_cons _ rfl), if_neg (cons_ne_nil _ _), tail_cons,
        ih here.2 (by simp)]
      by_cases found : c.1 = wanted <;> simp [found]

theorem cookies_unambiguous :
    (∀ name value o name' value' o' text, build name value o = some text → build name' value' o' = some text →
      name = name' ∧ value = value' ∧ effective o = effective o') ∧
    (∀ name value o text, build name value o = some text →
      text.splitOn semi = pair name value :: requested o) ∧
    ∀ cookies : List (Bytes × Bytes × CookieOpts), (∀ c ∈ cookies, (build c.1 c.2.1 c.2.2).isSome) →
      (cookies.map Prod.fst).Nodup →
      (∀ c ∈ cookies, get (header cookies) c.1 = c.2.1) ∧
      ∀ name, name ≠ [] → name ∉ cookies.map Prod.fst → get (header cookies) name = [] := by
  refine ⟨fun name value o name' value' o' text => build_unique, fun name value o text => build_splits, ?_⟩
  intro cookies built distinct
  have accepted : ∀ c ∈ cookies, Accepted c.1 c.2.1 c.2.2 := by
    intro c inside
    rcases Option.isSome_iff_exists.mp (built c inside) with ⟨text, made⟩
    exact (build_some made).1
  have reads : ∀ name, get (header cookies) name =
      ((cookies.find? fun c => c.1 = name).map fun c => c.2.1).getD [] :=
    fun name => getFrom_header accepted (forall_mem_nil _)
  constructor
  · intro c inside
    rw [reads]
    cases found : cookies.find? (fun d => d.1 = c.1) with
    | none => exact absurd (decide_eq_true rfl) (find?_eq_none.mp found c inside)
    | some d =>
      have named := find?_some found
      have same := inj_on_of_nodup_map distinct (mem_of_find?_eq_some found) inside (of_decide_eq_true named)
      rw [Option.map_some, Option.getD_some, same]
  · intro name _ absent
    have missing : cookies.find? (fun c => c.1 = name) = none :=
      find?_eq_none.mpr fun c inside same => absent (List.mem_map.mpr ⟨c, inside, of_decide_eq_true same⟩)
    rw [reads, missing, Option.map_none, Option.getD_none]

end Align.Cookies
