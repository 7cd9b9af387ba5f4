import Align.Outcomes

/-! Reconciling a migration catalog with the recorded history: the history is sorted and
validated, merged with the catalog by version, and the rows are sorted with those of the
catalog first. Names and checksums are bytes; an error is its text. -/
namespace Align.Migrations
open List Outcomes

abbrev Bytes := List UInt8

inductive MigrationDriver where
  | sqlite
  | postgres

inductive MigrationPolicy where
  | required
  | forbidden
deriving DecidableEq

inductive StoredMigrationState where
  | applying
  | applied
  | failed
deriving DecidableEq

structure ScreenedMigration where
  version : Nat
  filename : Bytes
  checksum : Bytes
  policy : MigrationPolicy
  statementCount : Nat

structure HistoryRow where
  formatVersion : Nat
  version : Nat
  filename : Bytes
  checksum : Bytes
  policy : MigrationPolicy
  state : StoredMigrationState
  completedStatements : Nat

inductive MigrationStatus where
  | pending
  | applied
  | nameMismatch
  | checksumMismatch
  | policyMismatch
  | dirtyApplying
  | dirtyFailed
  | historyOnly
deriving DecidableEq

structure MigrationStatusRow where
  version : Nat
  catalog : Option ScreenedMigration
  history : Option HistoryRow
  status : MigrationStatus

structure MigrationReport where
  driver : MigrationDriver
  rows : List MigrationStatusRow

def isDigit (byte : UInt8) : Bool := 48 ≤ byte && byte ≤ 57

def isLowercase (byte : UInt8) : Bool := 97 ≤ byte && byte ≤ 122

def canonicalChecksum (value : Bytes) : Bool :=
  value.length == 32 && value.all fun byte => isDigit byte || 97 ≤ byte && byte ≤ 102

/-- `NNNN_name.sql`, with a name of lowercase letters, digits and underscores. -/
def filenameVersion (value : Bytes) : Option Nat :=
  let digits := value.take 4
  let stem := (value.drop 5).take (value.length - 9)
  if value.length < 10 || value[4]? ≠ some 95 || value.drop (value.length - 4) ≠ [46, 115, 113, 108]
      || !digits.all isDigit then none
  else if !stem.head?.any isLowercase
      || !stem.tail.all fun byte => isLowercase byte || isDigit byte || byte == 95 then none
  else some (digits.foldl (fun value digit => 10 * value + (digit.toNat - 48)) 0)

/-- `{:04}`. -/
def fourDigits (version : Nat) : String :=
  "".pushn '0' (4 - (toString version).length) ++ toString version

def invalidRow (version : Nat) (what : String) : String :=
  "migration history version " ++ fourDigits version ++ " has an invalid " ++ what

def validState : MigrationPolicy → StoredMigrationState → Nat → Bool
  | .forbidden, .applying, 0 => true
  | .forbidden, .failed, 0 => true
  | .forbidden, .applied, 1 => true
  | .required, .applied, count => count != 0
  | _, _, _ => false

def validateHistory : Option Nat → List HistoryRow → Except String Unit
  | _, [] => .ok ()
  | prior, row :: rest =>
    if row.formatVersion ≠ 1 ∨ ¬ (1 ≤ row.version ∧ row.version ≤ 9999) then
      .error "migration history contains an invalid format/version"
    else if prior = some row.version then
      .error ("migration history repeats version " ++ fourDigits row.version)
    else if filenameVersion row.filename ≠ some row.version then
      .error (invalidRow row.version "filename")
    else if !canonicalChecksum row.checksum then .error (invalidRow row.version "checksum")
    else if validState row.policy row.state row.completedStatements then
      validateHistory (some row.version) rest
    else .error (invalidRow row.version "state")

def historyOnly (stored : HistoryRow) : MigrationStatusRow :=
  ⟨stored.version, none, some stored, .historyOnly⟩

def statusOf (current : ScreenedMigration) : Option HistoryRow → MigrationStatus
  | none => .pending
  | some row =>
    if row.filename ≠ current.filename then .nameMismatch
    else if row.checksum ≠ current.checksum then .checksumMismatch
    else if row.policy ≠ current.policy then .policyMismatch
    else match row.state with
      | .applying => .dirtyApplying
      | .failed => .dirtyFailed
      | .applied => .applied

def catalogRow (current : ScreenedMigration) (stored : Option HistoryRow) : MigrationStatusRow :=
  ⟨current.version, some current, stored, statusOf current stored⟩

def mergeRows : List ScreenedMigration → List HistoryRow → Except String (List MigrationStatusRow)
  | [], history => .ok (history.map historyOnly)
  | current :: rest, history =>
    let early := history.takeWhile (·.version < current.version)
    let later := history.dropWhile (·.version < current.version)
    let stored := later.head?.filter (·.version = current.version)
    if stored.any fun row => row.state = .applied ∧ row.completedStatements ≠ current.statementCount
    then .error (invalidRow current.version "completed-statement count")
    else (mergeRows rest (if stored.isSome then later.tail else later)).map fun rows =>
      early.map historyOnly ++ catalogRow current stored :: rows

def rowLe (left right : MigrationStatusRow) : Bool :=
  match left.catalog.isSome, right.catalog.isSome with
  | true, false => true
  | false, true => false
  | _, _ => left.version ≤ right.version

def sortHistory (history : List HistoryRow) : List HistoryRow :=
  history.mergeSort (·.version ≤ ·.version)

def reconcile (driver : MigrationDriver) (catalog : List ScreenedMigration)
    (history : List HistoryRow) : Except String MigrationReport :=
  (validateHistory none (sortHistory history)).bind fun _ =>
    (mergeRows catalog (sortHistory history)).map fun rows => ⟨driver, rows.mergeSort rowLe⟩

namespace MigrationReport

def isCurrent (report : MigrationReport) : Bool := report.rows.all (·.status = .applied)

def canMigrateFrom : Bool → List MigrationStatusRow → Bool
  | _, [] => true
  | pending, row :: rest =>
    match row.status, pending with
    | .applied, false => canMigrateFrom false rest
    | .pending, _ => canMigrateFrom true rest
    | _, _ => false

def canMigrate (report : MigrationReport) : Bool := canMigrateFrom false report.rows

end MigrationReport

/-- A run of the merge over a history with distinct versions in order. -/
inductive Merged : List ScreenedMigration → List HistoryRow → List MigrationStatusRow → Prop where
  | rest (history : List HistoryRow) : Merged [] history (history.map historyOnly)
  | entry (current : ScreenedMigration) (early : List HistoryRow) (stored : Option HistoryRow)
      {rest : List ScreenedMigration} {left : List HistoryRow} {rows : List MigrationStatusRow}
      (before : ∀ row ∈ early, row.version < current.version)
      (same : ∀ row ∈ stored, row.version = current.version)
      (behind : ∀ row ∈ left, current.version < row.version) (merged : Merged rest left rows) :
    Merged (current :: rest) (early ++ (stored.toList ++ left))
      (early.map historyOnly ++ catalogRow current stored :: rows)

/-- A recorded migration that is applied as the catalog has it. -/
def Applies (row : HistoryRow) (current : ScreenedMigration) : Prop :=
  row.version = current.version ∧ row.filename = current.filename ∧
    row.checksum = current.checksum ∧ row.policy = current.policy ∧ row.state = .applied

variable {row : HistoryRow} {current : ScreenedMigration}

theorem statusOf_applied :
    statusOf current (some row) = .applied ↔ row.filename = current.filename ∧
      row.checksum = current.checksum ∧ row.policy = current.policy ∧ row.state = .applied := by
  simp only [statusOf]
  split_ifs with name checksum policy
  all_goals cases state : row.state <;> simp_all

theorem statusOf_pending (current : ScreenedMigration) (row : HistoryRow) :
    statusOf current (some row) ≠ .pending := by
  simp only [statusOf]
  split_ifs <;> cases row.state <;> nofun

theorem validateHistory_strict (history : List HistoryRow) (prior : Option Nat)
    (sorted : history.Pairwise (·.version ≤ ·.version)) (valid : validateHistory prior history = .ok ()) :
    (∀ row ∈ history.head?, prior ≠ some row.version) ∧
      history.Pairwise (·.version < ·.version) := by
  induction history generalizing prior with
  | nil => simp
  | cons row rest ih =>
    simp only [validateHistory, refuse_ok, require_ok] at valid
    obtain ⟨-, fresh, -, -, -, others⟩ := valid
    obtain ⟨least, sorted⟩ := pairwise_cons.mp sorted
    obtain ⟨apart, strict⟩ := ih _ sorted others
    refine ⟨by simpa using fresh, pairwise_cons.mpr ⟨fun other member => ?_, strict⟩⟩
    cases rest with
    | nil => simp at member
    | cons next rest =>
      have above : row.version < next.version :=
        lt_of_le_of_ne (least next mem_cons_self) fun equal => apart next rfl (congrArg some equal)
      rcases mem_cons.mp member with rfl | member
      · exact above
      · exact above.trans ((pairwise_cons.mp strict).1 other member)

theorem mergeRows_merged (history : List HistoryRow)
    (rows : List MigrationStatusRow) (strict : history.Pairwise (·.version < ·.version))
    (merged : mergeRows catalog history = .ok rows) : Merged catalog history rows := by
  induction catalog generalizing history rows with
  | nil =>
    cases merged
    exact .rest history
  | cons current rest ih =>
    simp only [mergeRows, refuse_ok, map_ok] at merged
    obtain ⟨-, more, merged, rfl⟩ := merged
    have cut := takeWhile_append_dropWhile (p := (·.version < current.version)) (l := history)
    have before : ∀ row ∈ history.takeWhile (·.version < current.version),
        row.version < current.version := fun row member =>
      of_decide_eq_true (all_eq_true.mp all_takeWhile row member)
    have from_here := head?_dropWhile_not (·.version < current.version) history
    generalize history.takeWhile (·.version < current.version) = early,
      history.dropWhile (·.version < current.version) = later at *
    subst cut
    rw [pairwise_append] at strict
    cases later with
    | nil => exact .entry current early none before nofun (by simp) (ih _ _ .nil merged)
    | cons row others =>
      obtain ⟨above, others_strict⟩ := pairwise_cons.mp strict.2.1
      by_cases here : row.version = current.version
      · simp only [head?_cons, Option.filter_some, here, decide_true, if_true] at merged ⊢
        exact .entry current early (some row) before (by simpa using here)
          (fun other member => here ▸ above other member) (ih _ _ others_strict merged)
      have ahead : current.version < row.version := by simp at from_here; omega
      simp only [head?_cons, Option.filter_some, here, decide_false] at merged ⊢
      refine .entry current early none before nofun (fun other member => ?_) (ih _ _ strict.2.1 merged)
      rcases mem_cons.mp member with rfl | member
      · exact ahead
      · exact ahead.trans (above other member)

section Merged
open MigrationReport

variable {catalog : List ScreenedMigration} {history : List HistoryRow}
  {rows : List MigrationStatusRow}

theorem Merged.mem_version (merged : Merged catalog history rows) (version : Nat) :
    version ∈ rows.map (·.version) ↔
      version ∈ catalog.map (·.version) ∨ version ∈ history.map (·.version) := by
  induction merged with
  | rest history => simp [historyOnly]
  | entry current early stored before same behind merged ih =>
    cases stored with
    | none =>
      simp [historyOnly, catalogRow]
      grind
    | some row =>
      simp [historyOnly, catalogRow, same row rfl]
      grind

theorem Merged.strict (merged : Merged catalog history rows)
    (increasing : catalog.Pairwise (·.version < ·.version))
    (ordered : history.Pairwise (·.version < ·.version)) :
    rows.Pairwise (·.version < ·.version) := by
  induction merged with
  | rest history => exact pairwise_map.mpr ordered
  | @entry current early stored _ _ rows before same behind merged ih =>
    obtain ⟨least, increasing⟩ := pairwise_cons.mp increasing
    obtain ⟨early_ordered, others, -⟩ := pairwise_append.mp ordered
    -- Everything merged after the entry has a larger version.
    have above : ∀ row ∈ rows, current.version < row.version := fun row member => by
      rcases (merged.mem_version _).mp (mem_map_of_mem member) with entry | entry
      · obtain ⟨other, inside, same⟩ := mem_map.mp entry
        exact same ▸ least other inside
      · obtain ⟨other, inside, same⟩ := mem_map.mp entry
        exact same ▸ behind other inside
    refine pairwise_append.mpr ⟨pairwise_map.mpr early_ordered,
      pairwise_cons.mpr ⟨above, ih increasing (pairwise_append.mp others).2.1⟩, ?_⟩
    intro first first_member second second_member
    obtain ⟨stored, inside, rfl⟩ := mem_map.mp first_member
    rcases mem_cons.mp second_member with rfl | second_member
    · exact before stored inside
    · exact (before stored inside).trans (above second second_member)

theorem Merged.listed (merged : Merged catalog history rows) :
    ∀ row ∈ rows, row.status ≠ .historyOnly → row.catalog.isSome := by
  induction merged with
  | rest history => simp [historyOnly]
  | entry current early stored before same behind merged ih =>
    simpa [historyOnly, or_imp, forall_and] using ⟨fun _ => rfl, ih⟩

theorem canMigrateFrom_pending (rows : List MigrationStatusRow) :
    canMigrateFrom true rows ↔ ∀ row ∈ rows, row.status = .pending := by
  induction rows with
  | nil => simp [canMigrateFrom]
  | cons row rest ih => cases status : row.status <;> simp [canMigrateFrom, status, ih]

theorem canMigrateFrom_listed (pending : Bool) (rows : List MigrationStatusRow)
    (migrates : canMigrateFrom pending rows) :
    ∀ row ∈ rows, row.status ≠ .historyOnly := by
  induction rows generalizing pending with
  | nil => simp
  | cons row rest ih =>
    cases status : row.status <;> cases pending
    all_goals simp only [canMigrateFrom, status, Bool.false_eq_true] at migrates
    all_goals exact forall_mem_cons.mpr ⟨by rw [status]; nofun, ih _ migrates⟩

theorem Merged.pending_iff (merged : Merged catalog history rows) :
    (∀ row ∈ rows, row.status = .pending) ↔ history = [] := by
  induction merged with
  | rest history => cases history <;> simp [historyOnly]
  | entry current early stored before same behind merged ih =>
    rw [forall_mem_append, forall_mem_cons, ih]
    rcases early with _ | ⟨row, early⟩
    · cases stored with
      | none => simp [catalogRow, statusOf]
      | some row => simp [catalogRow, statusOf_pending]
    · simp [historyOnly]

/-- Whether the rows in merge order can migrate and are current, by the front of the catalog. -/
def Fronts (catalog : List ScreenedMigration) (history : List HistoryRow)
    (rows : List MigrationStatusRow) : Prop :=
  (canMigrateFrom false rows ↔ ∃ front, front <+: catalog ∧ Forall₂ Applies history front) ∧
    ((∀ row ∈ rows, row.status = .applied) ↔ Forall₂ Applies history catalog)

theorem fronts_refused (stuck : ¬ canMigrateFrom false rows) (other : ¬ ∀ row ∈ rows, row.status = .applied)
    (apart : ¬ Applies row current) : Fronts (current :: catalog) (row :: history) rows := by
  refine ⟨iff_of_false stuck ?_, iff_of_false other fun all => apart (forall₂_cons.mp all).1⟩
  rintro ⟨front, part, applies⟩
  obtain ⟨first, tail, applied, -, rfl⟩ := forall₂_cons_left_iff.mp applies
  exact apart ((cons_prefix_cons.mp part).1 ▸ applied)

theorem Merged.fronts (merged : Merged catalog history rows) : Fronts catalog history rows := by
  induction merged with
  | rest history =>
    cases history with
    | nil => simp [Fronts, canMigrateFrom]
    | cons row history => simp [Fronts, historyOnly, canMigrateFrom]
  | @entry current early stored rest left rows before same behind merged ih =>
    rcases early with _ | ⟨row, early⟩
    · rcases stored with _ | row
      · cases left with
        | nil =>
          have all := (canMigrateFrom_pending _).mpr (merged.pending_iff.mpr rfl)
          exact ⟨iff_of_true all ⟨[], nil_prefix, .nil⟩, by simp [catalogRow, statusOf]⟩
        | cons row left =>
          refine fronts_refused (fun migrates => ?_) (by simp [catalogRow, statusOf])
            fun applies => (behind row mem_cons_self).ne' applies.1
          exact cons_ne_nil _ _ (merged.pending_iff.mp ((canMigrateFrom_pending _).mp migrates))
      · by_cases applied : statusOf current (some row) = .applied
        · have applies : Applies row current := ⟨same row rfl, statusOf_applied.mp applied⟩
          refine ⟨?_, by simp [catalogRow, applied, applies, ih.2]⟩
          simp only [canMigrateFrom, nil_append, map_nil, catalogRow, applied, ih.1]
          constructor
          · rintro ⟨front, part, others⟩
            exact ⟨current :: front, cons_prefix_cons.mpr ⟨rfl, part⟩, .cons applies others⟩
          · rintro ⟨front, part, all⟩
            obtain ⟨first, tail, -, others, rfl⟩ := forall₂_cons_left_iff.mp all
            exact ⟨tail, (cons_prefix_cons.mp part).2, others⟩
        · refine fronts_refused ?_ (by simp [catalogRow, applied]) fun applies =>
            applied (statusOf_applied.mpr applies.2)
          have := statusOf_pending current row
          cases status : statusOf current (some row) <;> simp_all [canMigrateFrom, catalogRow]
    · exact fronts_refused nofun (by simp [historyOnly]) fun applies =>
        (before row mem_cons_self).ne applies.1

/-- A report that can migrate has rows of the catalog only, and those are in order. -/
theorem Merged.canMigrateFrom_sorted (merged : Merged catalog history rows)
    (strict : rows.Pairwise (·.version < ·.version)) :
    canMigrateFrom false (rows.mergeSort rowLe) ↔
      canMigrateFrom false rows := by
  have same (clean : ∀ row ∈ rows, row.status ≠ .historyOnly) : rows.mergeSort rowLe = rows := by
    refine mergeSort_of_pairwise (strict.imp_of_mem fun left right lt => ?_)
    simp [rowLe, merged.listed _ left (clean _ left), merged.listed _ right (clean _ right), lt.le]
  constructor
  · intro migrates
    have clean := canMigrateFrom_listed _ _ migrates
    rwa [same fun row member => clean row (mem_mergeSort.mpr member)] at migrates
  · intro migrates
    rwa [same (canMigrateFrom_listed _ _ migrates)]

end Merged

theorem sortHistory_perm (history : List HistoryRow) : (sortHistory history).Perm history :=
  mergeSort_perm history _

theorem sortHistory_sorted (history : List HistoryRow) :
    (sortHistory history).Pairwise (·.version ≤ ·.version) := by
  refine (pairwise_mergeSort (fun a b c ab bc => ?_) (fun a b => ?_) history).imp of_decide_eq_true
  · exact decide_eq_true ((of_decide_eq_true ab).trans (of_decide_eq_true bc))
  · simpa using le_total a.version b.version

theorem sortHistory_of_strict
    (strict : (sortHistory history).Pairwise (·.version < ·.version)) (perm : other.Perm history) :
    sortHistory other = sortHistory history := by
  have same := (sortHistory_perm _).trans (perm.trans (sortHistory_perm _).symm)
  refine same.eq_of_pairwise (fun a b left right le ge => ?_) (sortHistory_sorted _)
    (sortHistory_sorted _)
  exact inj_on_of_nodup_map (pairwise_map.mpr (strict.imp ne_of_lt)) (same.mem_iff.mp left) right
    (le_antisymm le ge)

/-- One row for each version, whatever the order of the history; a run is allowed exactly
when the history is an applied front of the catalog, and nothing is left to run exactly
when that front is the whole. -/
theorem reconcile_clean (driver : MigrationDriver) (catalog : List ScreenedMigration)
    (history : List HistoryRow) (report : MigrationReport)
    (increasing : catalog.Pairwise (·.version < ·.version))
    (succeeds : reconcile driver catalog history = .ok report) :
    (report.rows.map (·.version)).Nodup ∧
      (∀ version, version ∈ report.rows.map (·.version) ↔
        version ∈ catalog.map (·.version) ∨ version ∈ history.map (·.version)) ∧
      (∀ other, other.Perm history → reconcile driver catalog other = .ok report) ∧
      (report.canMigrate ↔
        ∃ front, front <+: catalog ∧ Forall₂ Applies (sortHistory history) front) ∧
      (report.isCurrent ↔ Forall₂ Applies (sortHistory history) catalog) := by
  have parts := succeeds
  simp only [reconcile, bind_ok, map_ok] at parts
  obtain ⟨⟨⟩, valid, rows, run, rfl⟩ := parts
  have ordered := (validateHistory_strict _ none (sortHistory_sorted history) valid).2
  have merged := mergeRows_merged _ rows ordered run
  have strict := merged.strict increasing ordered
  have perm := mergeSort_perm rows rowLe
  refine ⟨?_, fun version => ?_, fun other same => ?_, ?_, ?_⟩
  · exact (perm.map _).nodup_iff.mpr (pairwise_map.mpr (strict.imp ne_of_lt))
  · rw [(perm.map _).mem_iff, merged.mem_version, ((sortHistory_perm history).map _).mem_iff]
  · rw [← succeeds, reconcile, reconcile, sortHistory_of_strict ordered same]
  · rw [← merged.fronts.1, ← merged.canMigrateFrom_sorted strict]
    rfl
  · rw [← merged.fronts.2]
    simp [MigrationReport.isCurrent]

theorem reconcile_one_applied :
    ∃ catalog history report, reconcile .sqlite catalog history = .ok report ∧ history ≠ [] ∧
      (report.isCurrent ↔ Forall₂ Applies (sortHistory history) catalog) := by
  obtain ⟨report, succeeds⟩ : ∃ report, reconcile .sqlite
      [⟨1, [48, 48, 48, 49, 95, 97, 46, 115, 113, 108], replicate 32 97, .required, 2⟩]
      [⟨1, 1, [48, 48, 48, 49, 95, 97, 46, 115, 113, 108], replicate 32 97, .required, .applied, 2⟩] =
        .ok report := by
    rw [reconcile, sortHistory, mergeSort_singleton]
    exact ⟨_, rfl⟩
  exact ⟨_, _, report, succeeds, nofun,
    (reconcile_clean .sqlite _ _ _ (pairwise_singleton _ _) succeeds).2.2.2.2⟩

end Align.Migrations
