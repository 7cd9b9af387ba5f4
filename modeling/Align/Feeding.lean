import Mathlib

/-! Consumers fed piece by piece. One step of a consumer may take many items of
the input in front of it. Where a step over several items is a step over the first
one followed by a step over the others, or looks at the first one only, cutting the
input into pieces changes neither the result nor the error. -/
namespace Align.Feeding
open List

universe u v w
variable {State : Type u} {Item : Type v} {Error : Type w}

structure Machine (State : Type u) (Item : Type v) (Error : Type w) where
  step : State → List Item → Except Error (Nat × State)
  halted : State → Bool

/-- The second consumer goes on where the first stopped; counts add up. -/
def andThen (first : Except Error (Nat × State))
    (next : Nat → State → Except Error (Nat × State)) : Except Error (Nat × State) :=
  match first with
  | .error e => .error e
  | .ok (n, s) =>
      match next n s with
      | .error e => .error e
      | .ok (k, t) => .ok (n + k, t)

namespace Machine

/-- The loop of a consumer, with a bound on its turns. -/
def loop (m : Machine State Item Error) : Nat → State → List Item → Except Error (Nat × State)
  | 0, s, _ => .ok (0, s)
  | fuel + 1, s, rest =>
      if rest.isEmpty || m.halted s then .ok (0, s)
      else andThen (m.step s rest) fun n t => m.loop fuel t (rest.drop n)

def feed (m : Machine State Item Error) (s : State) (input : List Item) :
    Except Error (Nat × State) :=
  m.loop (2 * input.length + 1) s input

def feedAll (m : Machine State Item Error) : State → List (List Item) → Except Error (Nat × State)
  | s, [] => .ok (0, s)
  | s, piece :: rest => andThen (m.feed s piece) fun _ t => m.feedAll t rest

end Machine

/-- A run over several items looks at the first one only, or takes it, in a state that
`stays`, and goes on with the others. -/
def Splits (run : List Item → Except Error (Nat × State)) (stays : State → Prop)
    (next : State → Except Error (Nat × State)) (item : Item) (rest : List Item) : Prop :=
  run (item :: rest) = run [item] ∨ ∃ t, run [item] = .ok (1, t) ∧ stays t ∧
    run (item :: rest) = andThen (.ok (1, t)) fun _ t => next t

/-- What makes a consumer indifferent to cuts. A step that takes nothing must
leave a state that `owes` no such step. -/
structure Local (m : Machine State Item Error) (valid : State → Prop) (owes : State → Bool) :
    Prop where
  keeps : ∀ s rest n t, valid s → m.halted s = false → rest ≠ [] →
    m.step s rest = .ok (n, t) → valid t
  progress : ∀ s rest n t, valid s → m.halted s = false → rest ≠ [] →
    m.step s rest = .ok (n, t) → n ≤ rest.length ∧ (n = 0 → owes s = true ∧ owes t = false)
  first : ∀ s item rest, valid s → m.halted s = false → rest ≠ [] →
    m.step s (item :: rest) = m.step s [item] ∨
      ∃ t, m.step s [item] = .ok (1, t) ∧ m.halted t = false ∧
        m.step s (item :: rest) = andThen (.ok (1, t)) fun _ t => m.step t rest

theorem andThen_ok (s : State) (next : Nat → State → Except Error (Nat × State)) (k : Nat)
    (t : State) (done : next n s = .ok (k, t)) : andThen (.ok (n, s)) next = .ok (n + k, t) := by
  rw [andThen, done]

theorem andThen_ok_iff {next : Nat → State → Except Error (Nat × State)} :
    andThen first next = .ok (n, t) ↔
      ∃ k s l, first = .ok (k, s) ∧ next k s = .ok (l, t) ∧ n = k + l := by
  constructor
  · intro done
    rcases first with e | ⟨k, s⟩
    · cases done
    dsimp only [andThen] at done
    rcases second : next k s with e | ⟨l, u⟩
    · rw [second] at done
      cases done
    · rw [second] at done
      cases done
      exact ⟨k, s, l, rfl, second, rfl⟩
  · rintro ⟨k, s, l, rfl, second, rfl⟩
    exact andThen_ok s _ l t second

theorem andThen_map (s : State) (next : State → Except Error α) (f : α → State) :
    andThen (.ok (1, s)) (fun _ s => (next s).map fun t => (n, f t)) = (next s).map fun t => (n + 1, f t) := by
  dsimp only [andThen]
  cases next s with
  | error e => rfl
  | ok t =>
    dsimp only [Except.map]
    rw [Nat.add_comm 1]

theorem andThen_zero (s : State) (next : Nat → State → Except Error (Nat × State)) :
    andThen (.ok (0, s)) next = next 0 s := by
  dsimp only [andThen]
  rcases next 0 s with e | ⟨k, t⟩
  · rfl
  · dsimp only
    rw [Nat.zero_add]

theorem andThen_stay (first : Except Error (Nat × State)) :
    andThen first (fun _ s => .ok (0, s)) = first := by
  rcases first with e | ⟨n, s⟩
  · rfl
  · exact andThen_ok s _ 0 s rfl

theorem andThen_assoc (first : Except Error (Nat × State)) (second third : State → Except Error (Nat × State)) :
    andThen (andThen first fun _ s => second s) (fun _ s => third s) =
      andThen first fun _ s => andThen (second s) fun _ t => third t := by
  rcases first with e | ⟨n, s⟩
  · rfl
  dsimp only [andThen]
  rcases second s with e | ⟨k, t⟩
  · rfl
  dsimp only
  rcases third t with e | ⟨l, u⟩
  · rfl
  · dsimp only
    rw [Nat.add_assoc]

section Cuts
variable {m : Machine State Item Error} {valid : State → Prop} {owes : State → Bool}
variable (fuel : Nat) (s : State) (rest : List Item)

variable {s}

theorem loop_stop (stop : rest = [] ∨ m.halted s = true) : m.loop fuel s rest = .ok (0, s) := by
  cases fuel with
  | zero => rfl
  | succ fuel =>
    rw [Machine.loop, if_pos]
    rcases stop with rfl | halted
    · rfl
    · rw [halted, Bool.or_true]

theorem loop_step (some : rest ≠ []) (running : m.halted s = false) :
    m.loop (fuel + 1) s rest = andThen (m.step s rest) fun n t => m.loop fuel t (rest.drop n) := by
  rw [Machine.loop, if_neg]
  rw [running, Bool.or_false, List.isEmpty_iff]
  exact some

theorem loop_fuel (here : Local m valid owes) (g : Nat) (s : State) (rest : List Item)
    (ok : valid s) (enough : 2 * rest.length + (owes s).toNat ≤ f)
    (enough' : 2 * rest.length + (owes s).toNat ≤ g) : m.loop f s rest = m.loop g s rest := by
  induction f generalizing g s rest with
  | zero =>
    have none_ : rest = [] := eq_nil_of_length_eq_zero (by omega)
    rw [loop_stop 0 _ (Or.inl none_), loop_stop g _ (Or.inl none_)]
  | succ f ih =>
    by_cases none_ : rest = []
    · rw [loop_stop _ _ (Or.inl none_), loop_stop g _ (Or.inl none_)]
    cases halted : m.halted s with
    | true => rw [loop_stop _ _ (Or.inr halted), loop_stop g _ (Or.inr halted)]
    | false =>
      have length := length_pos_iff.mpr none_
      cases g with
      | zero => omega
      | succ g =>
        rw [loop_step f _ none_ halted, loop_step g _ none_ halted]
        rcases taken : m.step s rest with _ | ⟨n, t⟩
        · rfl
        have valid' := here.keeps s rest n t ok halted none_ taken
        rcases here.progress s rest n t ok halted none_ taken with ⟨inside, idle⟩
        have lighter : 2 * (rest.drop n).length + (owes t).toNat + 1 ≤
          2 * rest.length + (owes s).toNat := by
          rw [length_drop]
          have bit := Bool.toNat_le (owes t)
          by_cases zero : n = 0
          · rw [(idle zero).1, (idle zero).2, zero, Bool.toNat_true, Bool.toNat_false]
            omega
          · omega
        dsimp only [andThen]
        rw [ih g t (rest.drop n) valid' (by omega) (by omega)]

theorem feed_stop (stop : rest = [] ∨ m.halted s = true) :
    m.feed s rest = .ok (0, s) :=
  loop_stop _ _ stop

theorem feed_step (here : Local m valid owes) (s : State) (rest : List Item) (ok : valid s)
    (some : rest ≠ []) (running : m.halted s = false) :
    m.feed s rest = andThen (m.step s rest) fun n t => m.feed t (rest.drop n) := by
  rw [Machine.feed, loop_step _ _ some running]
  rcases taken : m.step s rest with _ | ⟨n, t⟩
  · rfl
  have valid' := here.keeps s rest n t ok running some taken
  rcases here.progress s rest n t ok running some taken with ⟨inside, idle⟩
  have bit := Bool.toNat_le (owes t)
  have fewer : 2 * (rest.drop n).length + (owes t).toNat ≤ 2 * rest.length := by
    rw [length_drop]
    by_cases zero : n = 0
    · rw [(idle zero).2, zero, Bool.toNat_false]
      omega
    · omega
  dsimp only [andThen]
  rw [Machine.feed, loop_fuel here (2 * (rest.drop n).length + 1) t _ valid' fewer (by omega)]

theorem feed_cons_of (here : Local m valid owes) (s : State) (item : Item) {rest : List Item}
    (ok : valid s) (running : m.halted s = false) (idle : ∀ t, m.step s [item] = .ok (0, t) →
      m.feed t (item :: rest) = andThen (m.feed t [item]) fun _ u => m.feed u rest) :
    m.feed s (item :: rest) = andThen (m.feed s [item]) fun _ t => m.feed t rest := by
  by_cases none_ : rest = []
  · subst none_
    have stay : (fun (_ : Nat) (t : State) => m.feed t []) = fun _ t => .ok (0, t) := by
      funext _ t
      exact feed_stop [] (Or.inl rfl)
    rw [stay, andThen_stay]
  have all : ∀ t, andThen (.ok (1, t)) (fun n u => m.feed u ([item].drop n)) = .ok (1, t) :=
    fun t => andThen_ok t _ 0 t (feed_stop [] (Or.inl rfl))
  rw [feed_step here s [item] ok (cons_ne_nil _ _) running,
    feed_step here s _ ok (cons_ne_nil _ _) running]
  rcases here.first s _ rest ok running none_ with same | ⟨t, single, going, bulk⟩
  · rw [same]
    rcases taken : m.step s [item] with _ | ⟨n, t⟩
    · rfl
    have inside := (here.progress s [item] n t ok running (cons_ne_nil _ _) taken).1
    rcases Nat.le_one_iff_eq_zero_or_eq_one.mp inside with rfl | rfl
    · rw [andThen_zero, andThen_zero]
      exact idle t taken
    · rfl
  · rw [single, bulk, all t]
    dsimp only [andThen]
    have valid' := here.keeps s [item] 1 t ok running (cons_ne_nil _ _) single
    rw [feed_step here t _ valid' none_ going]
    rcases more : m.step t rest with _ | ⟨k, u⟩
    · rfl
    dsimp only [andThen]
    rw [Nat.add_comm 1 k, drop_succ_cons]
    rcases m.feed u (rest.drop k) with e | ⟨l, w⟩
    · rfl
    · dsimp only
      rw [Nat.add_comm k 1, Nat.add_assoc]

theorem feed_cons (here : Local m valid owes) (s : State) (item : Item) (rest : List Item) (ok : valid s) :
    m.feed s (item :: rest) = andThen (m.feed s [item]) fun _ t => m.feed t rest := by
  cases halted : m.halted s with
  | true =>
    rw [feed_stop _ (Or.inr halted), feed_stop _ (Or.inr halted),
      andThen_ok s _ 0 s (feed_stop _ (Or.inr halted))]
  | false =>
    apply feed_cons_of here s _ ok halted
    intro t taken
    have valid' := here.keeps s [item] 0 t ok halted (cons_ne_nil _ _) taken
    have settled := (here.progress s [item] 0 t ok halted (cons_ne_nil _ _) taken).2 rfl
    cases halted' : m.halted t with
    | true =>
      rw [feed_stop _ (Or.inr halted'), feed_stop _ (Or.inr halted'),
        andThen_ok t _ 0 t (feed_stop _ (Or.inr halted'))]
    | false =>
      -- The state after an idle step owes none, so its own step takes an item.
      apply feed_cons_of here t _ valid' halted'
      intro u again
      have owing := (here.progress t [item] 0 u valid' halted' (cons_ne_nil _ _) again).2 rfl
      rw [owing.1] at settled
      cases settled.2

theorem loop_keeps (inv : State → Prop)
    (keeps : ∀ s rest n t, inv s → m.halted s = false → rest ≠ [] → m.step s rest = .ok (n, t) → inv t)
    (fuel : Nat) (s : State) (rest : List Item) (n : Nat) (t : State) (ok : inv s)
    (done : m.loop fuel s rest = .ok (n, t)) : inv t := by
  induction fuel generalizing s rest n with
  | zero =>
    cases done
    exact ok
  | succ fuel ih =>
    by_cases stop : rest = [] ∨ m.halted s = true
    · rw [loop_stop _ _ stop] at done
      cases done
      exact ok
    · rw [not_or, Bool.not_eq_true] at stop
      rw [loop_step _ _ stop.1 stop.2] at done
      rcases andThen_ok_iff.mp done with ⟨k, u, l, taken, more, _⟩
      exact ih u (rest.drop k) l (keeps s rest k u ok stop.2 stop.1 taken) more

theorem feed_keeps (here : Local m valid owes) (s : State) (rest : List Item) (n : Nat) (t : State)
    (ok : valid s) (done : m.feed s rest = .ok (n, t)) : valid t :=
  loop_keeps _ here.keeps _ s _ n t ok done

theorem feed_append (here : Local m valid owes) (s : State) (first second : List Item) (ok : valid s) :
    m.feed s (first ++ second) = andThen (m.feed s first) fun _ t => m.feed t second := by
  induction first generalizing s with
  | nil =>
    rw [nil_append, feed_stop [] (Or.inl rfl), andThen_zero]
  | cons item rest ih =>
    rw [cons_append, feed_cons here s _ _ ok, feed_cons here s _ rest ok]
    rw [andThen_assoc]
    rcases single : m.feed s [item] with _ | ⟨n, t⟩
    · rfl
    have valid' := feed_keeps here s [item] n t ok single
    dsimp only [andThen]
    rw [ih t valid']
    rfl

theorem feedAll_flatten (here : Local m valid owes) (s : State) (pieces : List (List Item))
    (ok : valid s) : m.feedAll s pieces = m.feed s pieces.flatten := by
  induction pieces generalizing s with
  | nil => exact (feed_stop [] (Or.inl rfl)).symm
  | cons piece rest ih =>
    rw [Machine.feedAll, flatten_cons, feed_append here s _ _ ok]
    rcases single : m.feed s piece with _ | ⟨n, t⟩
    · rfl
    dsimp only [andThen]
    rw [ih t (feed_keeps here s _ n t ok single)]

end Cuts

end Align.Feeding
