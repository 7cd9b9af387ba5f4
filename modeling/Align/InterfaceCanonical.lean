import Align.InterfaceCodec

/-! The artifact form is canonical: the decoder accepts exactly the spellings of the
summaries that pass its checks. One lemma for each reader and its writer. -/
namespace Align.InterfaceCanonical
open Codec Interface InterfaceCodec

theorem u8_exact : Exact Reader.u8 Writer.u8 fun _ => True := byte_exact _

theorem bool_exact : Exact Reader.bool Writer.bool fun _ => True := by
  refine Exact.enum _ u8_exact ?_ ?_
  · intro g
    cases g <;> rfl
  · intro b bytes g rest ok
    split at ok <;> cases ok <;> exact ⟨rfl, rfl⟩

theorem u32_exact : Exact Reader.u32 Writer.u32 fun _ => True :=
  word_exact _ _ _ UInt32.toNat_lt (fun _ => UInt32.ofNat_toNat)
    fun _ small => UInt32.toNat_ofNat'.trans (Nat.mod_eq_of_lt small)

theorem u64_exact : Exact Reader.u64 Writer.u64 fun _ => True :=
  word_exact _ _ _ UInt64.toNat_lt (fun _ => UInt64.ofNat_toNat)
    fun _ small => UInt64.toNat_ofNat'.trans (Nat.mod_eq_of_lt small)

theorem len_exact : Exact (UInt32.toNat <$> Reader.u32) Writer.len fun n => n < 2 ^ 32 := by
  refine Exact.via _ u32_exact ?_ ?_
  · intro n
    constructor
    · intro small
      exact ⟨UInt32.ofNat n, by rw [UInt32.toNat_ofNat', Nat.mod_eq_of_lt small], trivial⟩
    · rintro ⟨v, rfl, _⟩
      exact v.toNat_lt
  · intro v
    rw [Writer.len, if_pos v.toNat_lt, UInt32.ofNat_toNat]

def OptFits {α : Type} (fits : α → Prop) (o : Option α) : Prop := ∀ a, o = some a → fits a

variable {α : Type} {read : Read α} {write : α → Wire} {fits : α → Prop}

theorem opt_exact (what : String) (exact' : Exact read write fits) : Exact (Reader.opt what read) (Writer.opt write) (OptFits fits) := by
  refine Exact.tagged (fun o : Option α => if o.isSome then 1 else 0) u8_exact (fun o => ?_) fun b => ?_
  · cases o <;> simp [Writer.opt, Writer.u8]
  · split
    · refine Exact.pure _ (fun o => ?_) rfl
      cases o <;> simp [OptFits]
    · refine Exact.via _ exact' (fun o => ?_) fun a => untagged_tagged 1
      cases o <;> simp [OptFits]
    · rename_i zero one
      refine Exact.fail _ fun o => ?_
      cases o <;> simp_all [eq_comm]

theorem counted_exact (read : Nat → Read (List α)) {write : List α → Wire} {fits : List α → Prop}
    (exact' : ∀ n, Exact (read n) write fun items => items.length = n ∧ fits items) :
    Exact (Reader.u32 >>= fun n => read n.toNat) (fun items => Writer.len items.length ++ write items)
      fun items => items.length < 2 ^ 32 ∧ fits items := by
  have whole : Exact ((UInt32.toNat <$> Reader.u32) >>= read) (fun items => Writer.len items.length ++ write items)
    fun items => True ∧ items.length < 2 ^ 32 ∧ fits items :=
    Exact.bind _ len_exact fun n _ => (exact' n).congr fun items => by rw [true_and]
  rw [bind_map_left] at whole
  exact Exact.record whole

theorem buf_exact : Exact Reader.buf Writer.buf fun bytes => bytes.length < 2 ^ 32 := by
  have whole := counted_exact _ fun n => (take_exact DecodeError.truncated n).congr
    fun bytes => show bytes.length = n ∧ True ↔ _ by rw [and_true]
  exact whole.congr fun bytes => by rw [and_true]

def StrFits (s : String) : Prop := (Writer.strBytes s).length < 2 ^ 32

theorem ofBytes_strBytes (s : String) : (Writer.strBytes s).toByteArray = s.toByteArray := by
  apply ByteArray.ext
  rw [List.data_toByteArray, Writer.strBytes, Array.toArray_toList]

theorem str_exact : Exact Reader.str Writer.str StrFits := by
  have whole : Exact Reader.str (fun s => Writer.buf (Writer.strBytes s) ++ (some [] : Wire))
    fun s => True ∧ StrFits s ∧ True := by
    refine Exact.bind _ buf_exact fun bytes _ => ?_
    unfold Reader.fromUtf8
    split_ifs with valid
    · refine Exact.pure _ (fun s => ?_) rfl
      simp only [true_and, and_true]
      constructor
      · rintro rfl
        exact String.toByteArray_inj.mp (ofBytes_strBytes s).symm
      · rintro rfl
        simp [Writer.strBytes]
    · refine Exact.fail _ ?_
      rintro s ⟨⟨_, rfl⟩, _⟩
      rw [ofBytes_strBytes] at valid
      exact valid s.isValidUTF8
  exact Exact.record (whole.congrWith (fun s => by rw [and_true]) fun s _ => by rw [append_empty]; rfl)

def SeqFits {α : Type} (fits : α → Prop) (items : List α) : Prop := items.length < 2 ^ 32 ∧ ∀ a ∈ items, fits a

theorem seq_exact (exact' : Exact read write fits) :
    Exact (Reader.seq read) (Writer.seq write) (SeqFits fits) :=
  counted_exact _ (times_exact exact')

theorem mode_exact : Exact readMode (fun mode => Writer.u8 (modeTag mode)) fun _ => True := by
  refine Exact.enum _ u8_exact ?_ ?_
  · intro g
    cases g <;> rfl
  · intro b bytes g rest ok
    split at ok <;> cases ok <;> exact ⟨rfl, rfl⟩

theorem cleanup_exact : Exact readReturnCleanup writeReturnCleanup fun _ => True := by
  refine Exact.enum _ u8_exact ?_ ?_
  · intro g
    cases g <;> rfl
  · intro b bytes g rest ok
    split at ok <;> cases ok <;> exact ⟨rfl, rfl⟩

theorem effect_exact : Exact readEffect writeEffect fun _ => True := by
  refine Exact.enum _ u8_exact ?_ ?_
  · intro g
    cases g <;> rfl
  · intro b bytes g rest ok
    split at ok <;> cases ok <;> exact ⟨rfl, rfl⟩

theorem certification_exact : Exact readProducerCertification writeProducerCertification fun _ => True := by
  refine Exact.enum _ u8_exact ?_ ?_
  · intro g
    cases g <;> rfl
  · intro b bytes g rest ok
    split at ok <;> cases ok <;> exact ⟨rfl, rfl⟩

theorem dropState_exact : Exact readDropStateEffect (fun effect => Writer.u8 (dropStateTag effect)) fun _ => True := by
  refine Exact.enum _ u8_exact ?_ ?_
  · intro g
    cases g <;> rfl
  · intro b bytes g rest ok
    split at ok <;> cases ok <;> exact ⟨rfl, rfl⟩

/-- A `u32` may be any number. -/
def Roots (items : List UInt32) : Prop := items.length < 2 ^ 32

theorem u32s_exact : Exact (Reader.seq Reader.u32) (Writer.seq Writer.u32) Roots :=
  (seq_exact u32_exact).congr fun items => by simp [Roots, SeqFits]

def RootsFit (paramCount : Nat) (params captures : List UInt32) : Prop :=
  Roots params ∧ Roots captures ∧ validateRoots params captures paramCount = .ok ()

def BorrowFits (paramCount : Nat) : ReturnBorrowSummary → Prop
  | .none => True
  | .roots params captures => RootsFit paramCount params captures

def RegionFits (paramCount : Nat) : ReturnRegionSummary → Prop
  | .none => True
  | .roots params captures => RootsFit paramCount params captures

theorem roots_exact : Exact (readRoots paramCount) (fun roots => writeRoots roots.1 roots.2)
    fun roots => RootsFit paramCount roots.1 roots.2 := by
  refine Exact.record (Exact.bind _ u32s_exact fun params _ => ?_)
  refine Exact.final _ u32s_exact fun captures _ => ?_
  refine Exact.checkedLast Iff.rfl fun g => ?_
  rw [true_and, Prod.ext_iff]

def borrowTag : ReturnBorrowSummary → UInt8
  | .none => 0
  | .roots _ _ => 1

theorem borrow_exact :
    Exact (readReturnBorrow paramCount) writeReturnBorrow (BorrowFits paramCount) := by
  refine Exact.tagged borrowTag u8_exact (fun g => ?_) fun b => ?_
  · cases g <;> simp [writeReturnBorrow, Writer.u8, borrowTag]
  · split
    · refine Exact.pure _ (fun g => ?_) rfl
      cases g <;> simp [borrowTag, BorrowFits]
    · refine Exact.via _ (roots_exact) (fun g => ?_) fun roots => untagged_tagged 1
      cases g <;> simp [borrowTag, BorrowFits]
    · rename_i zero one
      refine Exact.fail _ fun g => ?_
      cases g <;> simp_all [borrowTag, eq_comm]

def regionTag : ReturnRegionSummary → UInt8
  | .none => 0
  | .roots _ _ => 1

theorem region_exact :
    Exact (readReturnRegion paramCount) writeReturnRegion (RegionFits paramCount) := by
  refine Exact.tagged regionTag u8_exact (fun g => ?_) fun b => ?_
  · cases g <;> simp [writeReturnRegion, Writer.u8, regionTag]
  · split
    · refine Exact.pure _ (fun g => ?_) rfl
      cases g <;> simp [regionTag, RegionFits]
    · refine Exact.via _ (roots_exact) (fun g => ?_) fun roots => untagged_tagged 1
      cases g <;> simp [regionTag, RegionFits]
    · rename_i zero one
      refine Exact.fail _ fun g => ?_
      cases g <;> simp_all [regionTag, eq_comm]

/-- Nested at most so deep, every length fits, and the roots of function types are valid. -/
def TypeFits : Nat → IType → Prop
  | 0, _ => False
  | left + 1, .named path args => StrFits path ∧ SeqFits (TypeFits left) args
  | left + 1, .tuple elems => SeqFits (TypeFits left) elems
  | left + 1, .fixedArray element _ => TypeFits left element
  | left + 1, .fn params ret returnBorrow returnRegion _ =>
      SeqFits (fun p => TypeFits left p.ty) params ∧ TypeFits left ret ∧ BorrowFits params.length returnBorrow ∧
        RegionFits params.length returnRegion

def typeTag : IType → UInt8
  | .named _ _ => 0
  | .tuple _ => 1
  | .fn _ _ _ _ _ => 2
  | .fixedArray _ _ => 3

theorem writeTypes_each (ts : List IType) : writeTypes ts = each writeType ts := by
  induction ts with
  | nil => rfl
  | cons t ts ih => rw [writeTypes, each, ih]

theorem writeParams_each (ps : List IParam) : writeParams ps = each writeParam ps := by
  induction ps with
  | nil => rfl
  | cons p ps ih => rw [writeParams, each, ih]

theorem param_exact {readType : Read IType} {fits : IType → Prop} (exact' : Exact readType writeType fits) :
    Exact (readParamWith readType) writeParam fun p => fits p.ty := by
  refine Exact.pair _ mode_exact exact' (fun p => ?_) fun mode ty => ?_
  · cases p
    simp
  · rw [writeParam]

abbrev FnParts := List IParam × IType × ReturnBorrowSummary × ReturnRegionSummary × ReturnCleanupAbi

def FnParts.type (f : FnParts) : IType := .fn f.1 f.2.1 f.2.2.1 f.2.2.2.1 f.2.2.2.2

theorem fnParts_exact {readType : Read IType} {fits : IType → Prop} (exact' : Exact readType writeType fits) :
    Exact (do
        let params ← Reader.seq (readParamWith readType)
        let ret ← readType
        let returnBorrow ← readReturnBorrow params.length
        let returnRegion ← readReturnRegion params.length
        let returnCleanup ← readReturnCleanup
        return ((params, ret, returnBorrow, returnRegion, returnCleanup) : FnParts))
      (fun f : FnParts => Writer.seq writeParam f.1 ++ (writeType f.2.1 ++ (writeReturnBorrow f.2.2.1 ++
        (writeReturnRegion f.2.2.2.1 ++ writeReturnCleanup f.2.2.2.2))))
      fun f => SeqFits (fun p => fits p.ty) f.1 ∧ fits f.2.1 ∧ BorrowFits f.1.length f.2.2.1 ∧
        RegionFits f.1.length f.2.2.2.1 ∧ True := by
  refine Exact.record (Exact.bind _ (seq_exact (param_exact exact')) fun params _ => ?_)
  refine Exact.bind _ exact' fun ret _ => ?_
  refine Exact.bindWith _ borrow_exact
    (fun g known => by simp only [known]) fun returnBorrow _ => ?_
  refine Exact.bindWith _ region_exact
    (fun g known => by simp only [known]) fun returnRegion _ => ?_
  refine Exact.last _ cleanup_exact fun returnCleanup g _ => ?_
  simp only [true_and, Prod.ext_iff, and_assoc]

theorem type_exact : Exact (readTypeAtDepth left) writeType (TypeFits left) := by
  induction left with
  | zero => exact Exact.fail _ fun t fit => fit
  | succ left ih =>
    refine Exact.tagged typeTag u8_exact (fun t => ?_) fun b => ?_
    · cases t <;> simp [writeType, Writer.u8, typeTag]
    · split
      · refine Exact.pair _ str_exact (seq_exact ih) (fun t => ?_) fun path args => ?_
        · cases t <;> simp [typeTag, TypeFits]
        · rw [writeType, writeTypes_each]
          exact untagged_tagged 0
      · have shape : (do let elems ← Reader.seq (readTypeAtDepth left); return IType.tuple elems) =
          IType.tuple <$> Reader.seq (readTypeAtDepth left) := by
          rw [map_eq_pure_bind]
        refine Exact.via _ (seq_exact ih) (fun t => ?_) fun elems => ?_
        · cases t <;> simp [typeTag, TypeFits]
        · rw [writeType, writeTypes_each]
          exact untagged_tagged 1
      · refine Exact.ofShape (Exact.via FnParts.type (fnParts_exact ih) (fun t => ?_) fun f => ?_) ?_
        · cases t <;> simp [typeTag, TypeFits, FnParts.type]
        · rw [FnParts.type, writeType, writeParams_each]
          exact untagged_tagged 2
        · simp only [map_bind, map_pure]
          rfl
      · refine Exact.pair _ ih u32_exact (fun t => ?_) fun element length => ?_
        · cases t <;> simp [typeTag, TypeFits]
        · exact untagged_tagged 3
      · rename_i zero one two three
        refine Exact.fail _ fun t => ?_
        cases t <;> simp_all [typeTag, eq_comm]

def TypeAccepted (t : IType) : Prop := TypeFits MAX_TYPE_DEPTH t

theorem readType_exact : Exact readType writeType TypeAccepted := type_exact

def TypeParamFits (tp : ITypeParam) : Prop := StrFits tp.name ∧ OptFits StrFits tp.bound

theorem typeParams_exact : Exact readTypeParams writeTypeParams (SeqFits TypeParamFits) := by
  refine seq_exact (Exact.pair _ str_exact (opt_exact "option" str_exact) (fun tp => ?_) fun _ _ => rfl)
  cases tp
  simp [TypeParamFits]

def projectionTag : CallbackProjection → UInt8
  | .structField _ => 0
  | .tupleElement _ => 1
  | .enumPayload _ _ => 2
  | .optionSome => 3
  | .resultOk => 4
  | .resultErr => 5
  | .arrayElement => 6

theorem projection_exact : Exact readCallbackProjection writeCallbackProjection fun _ => True := by
  refine Exact.tagged projectionTag u8_exact (fun g => ?_) fun b => ?_
  · cases g <;> simp [writeCallbackProjection, Writer.u8, projectionTag]
  · split
    · refine Exact.via _ u32_exact (fun g => ?_) fun i => untagged_tagged 0
      cases g <;> simp [projectionTag]
    · refine Exact.via _ u32_exact (fun g => ?_) fun i => untagged_tagged 1
      cases g <;> simp [projectionTag]
    · refine Exact.pair _ u32_exact u32_exact (fun g => ?_) fun i j => untagged_tagged 2
      cases g <;> simp [projectionTag]
    · refine Exact.pure _ (fun g => ?_) rfl
      cases g <;> simp [projectionTag]
    · refine Exact.pure _ (fun g => ?_) rfl
      cases g <;> simp [projectionTag]
    · refine Exact.pure _ (fun g => ?_) rfl
      cases g <;> simp [projectionTag]
    · refine Exact.pure _ (fun g => ?_) rfl
      cases g <;> simp [projectionTag]
    · rename_i h0 h1 h2 h3 h4 h5 h6
      refine Exact.fail _ fun g => ?_
      cases g <;> simp_all [projectionTag, eq_comm]

/-- A path has no condition of its own besides its length. -/
def PathFits (path : List CallbackProjection) : Prop := path.length < 2 ^ 32

theorem path_exact : Exact readCallbackPath writeCallbackPath PathFits :=
  (seq_exact projection_exact).congr fun items => by simp [PathFits, SeqFits]

def InputFits (input : CallbackInput) : Prop := PathFits input.path

theorem input_exact : Exact readCallbackInput writeCallbackInput InputFits := by
  refine Exact.pair _ u32_exact path_exact (fun input => ?_) fun _ _ => rfl
  cases input
  simp [InputFits]

def readTag : CallbackRead → UInt8
  | .environment => 0
  | .argument _ => 1

theorem read_exact : Exact readCallbackRead writeCallbackRead fun _ => True := by
  refine Exact.tagged readTag u8_exact (fun g => ?_) fun b => ?_
  · cases g <;> simp [writeCallbackRead, Writer.u8, readTag]
  · split
    · refine Exact.pure _ (fun g => ?_) rfl
      cases g <;> simp [readTag]
    · refine Exact.via _ u32_exact (fun g => ?_) fun i => untagged_tagged 1
      cases g <;> simp [readTag]
    · rename_i zero one
      refine Exact.fail _ fun g => ?_
      cases g <;> simp_all [readTag, eq_comm]

def RequirementFits (row : CallbackRequirement) : Prop := InputFits row.input

theorem requirement_exact : Exact readCallbackRequirement writeCallbackRequirement RequirementFits := by
  refine Exact.pair _ input_exact read_exact (fun row => ?_) fun _ _ => rfl
  cases row
  simp [RequirementFits]

theorem effects_exact : Exact readCallbackEffects
    (fun effects => Writer.bool effects.environmentWrite ++ Writer.seq Writer.u32 effects.argumentWrites)
    fun effects => Roots effects.argumentWrites := by
  refine Exact.pair _ bool_exact u32s_exact (fun effects => ?_) fun _ _ => rfl
  cases effects
  simp

def SourceFits : CallbackSource → Prop
  | .parameter input => InputFits input
  | .known effects => Roots effects.argumentWrites
  | .unknown => True

def sourceTag : CallbackSource → UInt8
  | .parameter _ => 0
  | .known _ => 1
  | .unknown => 2

theorem source_exact : Exact readCallbackSource writeCallbackSource SourceFits := by
  refine Exact.tagged sourceTag u8_exact (fun g => ?_) fun b => ?_
  · cases g <;> simp [writeCallbackSource, Writer.u8, sourceTag]
  · split
    · refine Exact.via _ input_exact (fun g => ?_) fun i => untagged_tagged 0
      cases g <;> simp [sourceTag, SourceFits]
    · refine Exact.via _ effects_exact (fun g => ?_) fun i => untagged_tagged 1
      cases g <;> simp [sourceTag, SourceFits]
    · refine Exact.pure _ (fun g => ?_) rfl
      cases g <;> simp [sourceTag, SourceFits]
    · rename_i zero one two
      refine Exact.fail _ fun g => ?_
      cases g <;> simp_all [sourceTag, eq_comm]

def ReturnFits (row : CallbackReturn) : Prop := PathFits row.path ∧ SeqFits SourceFits row.sources

theorem return_exact : Exact readCallbackReturn writeCallbackReturn ReturnFits := by
  refine Exact.pair _ path_exact (seq_exact source_exact) (fun row => ?_) fun _ _ => rfl
  cases row
  simp [ReturnFits]

def ContractFits (contract : CallbackContract) : Prop :=
  SeqFits RequirementFits contract.requirements ∧ SeqFits ReturnFits contract.returns

theorem contract_exact : Exact readCallbackContract writeCallbackContract (OptFits ContractFits) := by
  refine opt_exact _ (Exact.pair _ (seq_exact requirement_exact) (seq_exact return_exact)
    (fun contract => ?_) fun _ _ => rfl)
  cases contract
  simp [ContractFits]

def accessTag : MutableAccessRoot → UInt8
  | .contained _ => 0
  | .storage _ => 1

theorem accessRoot_exact : Exact readAccessRoot writeAccessRoot fun _ => True := by
  refine Exact.tagged accessTag u8_exact (fun g => ?_) fun b => ?_
  · cases g <;> simp [writeAccessRoot, Writer.u8, accessTag]
  · split
    · refine Exact.via _ u32_exact (fun g => ?_) fun i => untagged_tagged 0
      cases g <;> simp [accessTag]
    · refine Exact.via _ u32_exact (fun g => ?_) fun i => untagged_tagged 1
      cases g <;> simp [accessTag]
    · rename_i zero one
      refine Exact.fail _ fun g => ?_
      cases g <;> simp_all [accessTag, eq_comm]

def ConditionalFits (row : ConditionalAccess) : Prop :=
  RequirementFits row.requirement ∧ SeqFits (fun _ => True) row.roots

theorem conditional_exact : Exact readConditionalAccess writeConditionalAccess ConditionalFits := by
  refine Exact.pair _ requirement_exact (seq_exact accessRoot_exact) (fun row => ?_) fun _ _ => rfl
  cases row
  simp [ConditionalFits]

def AccessEffectsFit (effects : MutableAccessEffects) : Prop :=
  SeqFits (fun _ => True) effects.direct ∧ SeqFits ConditionalFits effects.conditional

theorem accessEffects_exact : Exact readAccessEffects
    (fun effects => Writer.seq writeAccessRoot effects.direct ++ Writer.seq writeConditionalAccess effects.conditional)
    AccessEffectsFit := by
  refine Exact.pair _ (seq_exact accessRoot_exact) (seq_exact conditional_exact) (fun effects => ?_)
    fun _ _ => rfl
  cases effects
  simp [AccessEffectsFit]

theorem validated_exact (verdict : α → Except DecodeError Unit) (exact' : Exact read write fits) :
    Exact (do let a ← read; check (verdict a); return a) write fun a => fits a ∧ verdict a = .ok () := by
  refine Exact.record (Exact.final id exact' fun a _ => ?_)
  refine Exact.checkedLast Iff.rfl fun g => ?_
  simp

def AccessFits (parameterCount : Nat) (generic : Bool) (summary : MutableAccessSummary) : Prop :=
  OptFits AccessEffectsFit summary ∧ invalidSummary (validateMutableAccess summary parameterCount generic) = .ok ()

variable (parameterCount : Nat) (generic : Bool)

theorem access_exact :
    Exact (readMutableAccess parameterCount generic) writeMutableAccess (AccessFits parameterCount generic) :=
  validated_exact _
    (opt_exact _ accessEffects_exact)

theorem retentionRoot_exact : Exact readRetentionRoot writeRetentionRoot fun _ => True := by
  refine Exact.tagged retentionTag u8_exact (fun g => ?_) fun b => ?_
  · cases g <;> simp [writeRetentionRoot, Writer.u8, retentionTag]
  · split
    · refine Exact.via _ u32_exact (fun g => ?_) fun i => untagged_tagged 0
      cases g <;> simp [retentionTag]
    · refine Exact.via _ u32_exact (fun g => ?_) fun i => untagged_tagged 1
      cases g <;> simp [retentionTag]
    · rename_i zero one
      refine Exact.fail _ fun g => ?_
      cases g <;> simp_all [retentionTag, eq_comm]

def DestinationFits (destination : MutableRetentionDestination) : Prop := SeqFits (fun _ => True) destination.roots

theorem destination_exact : Exact readRetentionDestination writeRetentionDestination DestinationFits := by
  refine Exact.pair _ bool_exact (seq_exact retentionRoot_exact) (fun destination => ?_)
    fun _ _ => rfl
  cases destination
  simp [DestinationFits]

def RetentionFits (params : List IParam) (generic : Bool) (summary : MutableRetentionSummary) : Prop :=
  OptFits (SeqFits DestinationFits) summary ∧
    invalidSummary (validateMutableRetention summary (params.map ParamOf.mode) generic) = .ok ()

theorem retention_exact (generic : Bool) :
    Exact (readMutableRetention params generic) writeMutableRetention (RetentionFits params generic) :=
  validated_exact _
    (opt_exact _ (seq_exact destination_exact))

theorem refuse_ok : refuse bad reason = .ok () ↔ bad = false := by
  cases bad <;> simp [refuse]

/-! View effects, whose roots are checked one by one as they are read. -/

def ViewRootFits (parameterCount : Nat) (previous : Option MutableRetentionRoot) (root : MutableRetentionRoot) : Prop :=
  refuse (parameterCount ≤ root.index.toNat) "mutable-view-effect roots" = .ok () ∧
    refuse (previous.any fun previous => (compare previous root).isGE) "mutable-view-effect roots" = .ok ()

theorem retentionRoot_parts (known : tag = 0 ∨ tag = 1) (root : MutableRetentionRoot) :
    (retentionTag root = tag ∧ root.index = ordinal) ↔
      root = if tag = 0 then MutableRetentionRoot.contained ordinal else .storage ordinal := by
  rcases known with rfl | rfl <;> cases root <;> simp [retentionTag, MutableRetentionRoot.index]

theorem viewOrdinal_exact : Exact (readViewOrdinal tag) Writer.u32 fun _ => tag = 0 ∨ tag = 1 := by
  unfold readViewOrdinal
  split_ifs with known
  · exact u32_exact.congr fun _ => iff_true_intro known
  · exact Exact.fail _ fun _ => known

theorem viewRoot_exact :
    Exact (readViewRoot parameterCount previous) writeRetentionRoot (ViewRootFits parameterCount previous) := by
  refine Exact.record (Exact.record (Exact.bind _ u8_exact fun tag _ => ?_))
  suffices tail : Exact _ (fun g => Writer.u32 g.index) fun g =>
    (True ∧ retentionTag g = tag) ∧ (tag = 0 ∨ tag = 1) ∧ ViewRootFits parameterCount previous g by
    refine tail.congr fun g => and_congr_right fun seen => ?_
    refine ⟨fun fits => ⟨?_, fits⟩, fun fits => fits.2⟩
    cases g <;> simp [← seen.2, retentionTag]
  refine Exact.final _ (viewOrdinal_exact) fun index known => ?_
  refine Exact.checked (fun g seen => by rw [seen.2]) fun _ => Exact.checkedLast Iff.rfl fun g => ?_
  rw [true_and]
  exact retentionRoot_parts known g

/-- The roots behind `previous`, each below the parameter count and above the one in
front of it. -/
def ViewRootsFrom (parameterCount : Nat) : Option MutableRetentionRoot → List MutableRetentionRoot → Prop
  | _, [] => True
  | previous, root :: roots => ViewRootFits parameterCount previous root ∧ ViewRootsFrom parameterCount (some root) roots

theorem viewRootsLoop_exact (n : Nat) (previous : Option MutableRetentionRoot) :
    Exact (viewRootsLoop parameterCount n previous) (each writeRetentionRoot)
      fun roots => roots.length = n ∧ ViewRootsFrom parameterCount previous roots := by
  induction n generalizing previous with
  | zero =>
    refine Exact.pure [] (fun roots => ?_) rfl
    constructor
    · rintro ⟨none, _⟩
      exact List.length_eq_zero_iff.mp none
    · rintro rfl
      exact ⟨rfl, trivial⟩
  | succ n ih =>
    refine Exact.pairWith _ (viewRoot_exact _) (fun root _ => ih (some root))
      (fun roots => ?_) fun _ _ => rfl
    cases roots <;> simp [ViewRootsFrom, and_left_comm]

def ViewRootsFit (parameterCount : Nat) (roots : List MutableRetentionRoot) : Prop :=
  roots.length < 2 ^ 32 ∧ refuse (parameterCount * 2 < roots.length) "mutable-view-effect count" = .ok () ∧
    ViewRootsFrom parameterCount none roots

theorem viewRoots_exact :
    Exact (readViewRoots parameterCount) (Writer.seq writeRetentionRoot) (ViewRootsFit parameterCount) := by
  refine counted_exact (fun n => do
    check (refuse (parameterCount * 2 < n) "mutable-view-effect count")
    viewRootsLoop parameterCount n none) fun n => ?_
  exact Exact.checked (fun roots known => by rw [known]) fun _ => (viewRootsLoop_exact _ n _)

theorem flags_bits : ∀ x : BitVec 8, badViewFlags ⟨x⟩ = false →
    (decide ((⟨x⟩ : UInt8) &&& 0x01 ≠ 0)).toUInt8 ||| ((decide ((⟨x⟩ : UInt8) &&& 0x02 ≠ 0)).toUInt8 <<< 1) |||
      ((decide ((⟨x⟩ : UInt8) &&& 0x04 ≠ 0)).toUInt8 <<< 2) ||| ((decide ((⟨x⟩ : UInt8) &&& 0x08 ≠ 0)).toUInt8 <<< 3) =
        ⟨x⟩ := by
  decide +kernel

theorem viewFlags_parts (good : badViewFlags flags = false) (effect : MutableViewEffect) :
    viewFlags effect = flags ↔
      effect.mayWriteOriginal = decide (flags &&& 0x01 ≠ 0) ∧
        effect.mustWriteOriginalElement = decide (flags &&& 0x02 ≠ 0) ∧
        effect.mayRebind = decide (flags &&& 0x04 ≠ 0) ∧ effect.mustRebind = decide (flags &&& 0x08 ≠ 0) := by
  constructor
  · rintro rfl
    have bits : ∀ a b c d : Bool,
      let flags := a.toUInt8 ||| (b.toUInt8 <<< 1) ||| (c.toUInt8 <<< 2) ||| (d.toUInt8 <<< 3)
      a = decide (flags &&& 0x01 ≠ 0) ∧ b = decide (flags &&& 0x02 ≠ 0) ∧ c = decide (flags &&& 0x04 ≠ 0) ∧
        d = decide (flags &&& 0x08 ≠ 0) := by
      decide
    exact bits _ _ _ _
  · rintro ⟨first, second, third, fourth⟩
    rw [viewFlags, first, second, third, fourth]
    exact flags_bits _ good

def ViewEffectFits (parameterCount : Nat) (effect : MutableViewEffect) : Prop :=
  refuse (badViewFlags (viewFlags effect)) "mutable-view-effect flags" = .ok () ∧
    ViewRootsFit parameterCount effect.writeRoots ∧ ViewRootsFit parameterCount effect.rebindRoots ∧
      refuse (viewFlags effect &&& 0x04 = 0 && !effect.rebindRoots.isEmpty) "mutable-view-effect roots" = .ok ()

theorem viewEffect_exact :
    Exact (readViewEffect parameterCount) writeViewEffect (ViewEffectFits parameterCount) := by
  refine Exact.record (Exact.record (Exact.bind _ u8_exact fun flags _ => ?_))
  refine Exact.checked (fun g seen => by rw [seen.2]) fun passed => ?_
  refine Exact.bind _ (viewRoots_exact _) fun writeRoots _ => ?_
  refine Exact.final _ (viewRoots_exact _) fun rebindRoots _ => ?_
  refine Exact.checkedLast (by rw [(viewFlags_parts (refuse_ok.mp passed) _).mpr ⟨rfl, rfl, rfl, rfl⟩]) fun g => ?_
  rw [true_and, viewFlags_parts (refuse_ok.mp passed) g]
  cases g
  simp [and_assoc]

def ViewEffectsFit (parameterCount : Nat) (generic : Bool) (effects : List (Option MutableViewEffect)) : Prop :=
  effects.length < 2 ^ 32 ∧ refuse (generic || effects.length ≠ parameterCount) "mutable-view-effect count" = .ok () ∧
    ∀ effect ∈ effects, OptFits (ViewEffectFits parameterCount) effect

theorem viewEffects_exact :
    Exact (readMutableViewEffect parameterCount generic) writeMutableViewEffect
      (OptFits (ViewEffectsFit parameterCount generic)) := by
  refine opt_exact _ (counted_exact (fun n => do
    check (refuse (generic || n ≠ parameterCount) "mutable-view-effect count")
    times (Reader.opt "mutable-view-effect option" (readViewEffect parameterCount)) n) fun n => ?_)
  exact Exact.checked (fun effects known => by rw [known]) fun _ => times_exact (opt_exact _ (viewEffect_exact _)) n

def ExternFits (external : IInlineExtern) : Prop :=
  OptFits StrFits external.link ∧ StrFits external.name ∧ SeqFits TypeAccepted external.params ∧
    TypeAccepted external.ret

theorem extern_exact : Exact readInlineExtern writeInlineExtern ExternFits := by
  refine Exact.record (Exact.bind _ (opt_exact _ str_exact) fun link _ => ?_)
  refine Exact.bind _ str_exact fun name _ => ?_
  refine Exact.bind _ (seq_exact readType_exact) fun params _ => ?_
  refine Exact.last _ readType_exact fun ret g _ => ?_
  cases g
  simp [and_assoc]

/-- The policy, the source and the externs of an inline body. -/
abbrev InlineParts := UInt32 × String × List IInlineExtern

def InlineFits (f : InlineParts) : Prop :=
  refuse (f.1 ≠ INLINE_BODY_POLICY_VERSION) "unsupported concrete-inline policy version" = .ok () ∧
    StrFits f.2.1 ∧ SeqFits ExternFits f.2.2 ∧ externsCanonical f.2.2 = .ok ()

theorem inlineParts_exact : Exact (do
        let policyVersion ← Reader.u32
        check (refuse (policyVersion ≠ INLINE_BODY_POLICY_VERSION) "unsupported concrete-inline policy version")
        let source ← Reader.str
        let externs ← Reader.seq readInlineExtern
        check (externsCanonical externs)
        return ((policyVersion, source, externs) : InlineParts))
      (fun f : InlineParts => Writer.u32 f.1 ++ (Writer.str f.2.1 ++ Writer.seq writeInlineExtern f.2.2)) InlineFits := by
  refine Exact.record (Exact.record (Exact.bind _ u32_exact fun policyVersion _ => ?_))
  refine Exact.checked (fun g seen => by rw [seen.2]) fun _ => ?_
  refine Exact.bind _ str_exact fun source _ => ?_
  refine Exact.final _ (seq_exact extern_exact) fun externs _ => ?_
  refine Exact.checkedLast Iff.rfl fun g => ?_
  simp only [true_and, Prod.ext_iff, and_assoc]

def InlineParts.body (f : InlineParts) : IFnBody := .concreteInline f.1 f.2.1 f.2.2

def BodyFits : IFnBody → Prop
  | .absent => True
  | .genericTemplate source => StrFits source
  | .concreteInline policyVersion source externs => InlineFits (policyVersion, source, externs)

def bodyTag : IFnBody → UInt8
  | .absent => 0
  | .genericTemplate _ => 1
  | .concreteInline _ _ _ => 2

theorem body_exact : Exact readFnBody writeFnBody BodyFits := by
  refine Exact.tagged bodyTag u8_exact (fun g => ?_) fun b => ?_
  · cases g <;> simp [writeFnBody, Writer.u8, bodyTag]
  · split
    · refine Exact.pure _ (fun g => ?_) rfl
      cases g <;> simp [bodyTag, BodyFits]
    · refine Exact.via _ str_exact (fun g => ?_) fun source => untagged_tagged 1
      cases g <;> simp [bodyTag, BodyFits]
    · refine Exact.ofShape (Exact.via InlineParts.body inlineParts_exact (fun g => ?_) fun f => untagged_tagged 2) ?_
      · cases g <;> simp [bodyTag, BodyFits, InlineParts.body]
      · simp only [map_bind, map_pure]
        rfl
    · rename_i zero one two
      refine Exact.fail _ fun g => ?_
      cases g <;> simp_all [bodyTag, eq_comm]

/-- What the decoder demands of one function record, in the order of the record. -/
def FnAccepted (f : IFnSig) : Prop :=
  StrFits f.name ∧ SeqFits TypeParamFits f.typeParams ∧ SeqFits (fun p => TypeAccepted p.ty) f.params ∧
    TypeAccepted f.ret ∧ BorrowFits f.params.length f.returnBorrow ∧ RegionFits f.params.length f.returnRegion ∧
    f.dropStateEffects.length < 2 ^ 32 ∧
    validateDropStates f.params f.dropStateEffects (!f.typeParams.isEmpty) = .ok () ∧
    Roots f.parallelTransferParams ∧ validateTransferRoots f.parallelTransferParams f.params.length = .ok () ∧
    AccessFits f.params.length (!f.typeParams.isEmpty) f.mutableAccess ∧ OptFits ContractFits f.callbackContract ∧
    invalidSummary (validateCallbackRecordOrder f.callbackContract f.params.length (!f.typeParams.isEmpty)) = .ok () ∧
    RetentionFits f.params (!f.typeParams.isEmpty) f.mutableRetention ∧
    OptFits (ViewEffectsFit f.params.length (!f.typeParams.isEmpty)) f.mutableViewEffect ∧ BodyFits f.body ∧
    refuse (!certificationMatchesBody f.producerCertification (!f.typeParams.isEmpty) f.body)
      "producer certification disagrees with function body presence" = .ok ()

theorem dropStates_exact : Exact (Reader.seq readDropStateEffect) writeDropStateEffects
    fun effects => effects.length < 2 ^ 32 :=
  (seq_exact dropState_exact).congr fun items => by simp [SeqFits]

theorem fn_exact : Exact readFn writeFn FnAccepted := by
  refine Exact.record (Exact.bind _ str_exact fun name _ => ?_)
  refine Exact.bind _ typeParams_exact fun typeParams _ => ?_
  refine Exact.bind _ (seq_exact (param_exact readType_exact)) fun params _ => ?_
  refine Exact.bind _ readType_exact fun ret _ => ?_
  refine Exact.bindWith _ borrow_exact (fun g known => by simp only [known])
    fun returnBorrow _ => ?_
  refine Exact.bindWith _ region_exact (fun g known => by simp only [known])
    fun returnRegion _ => ?_
  refine Exact.bindFree _ cleanup_exact fun returnCleanup => ?_
  refine Exact.bind _ dropStates_exact fun dropStateEffects _ => ?_
  refine Exact.checked (fun g known => by simp only [known]) fun _ => ?_
  refine Exact.bindFree _ certification_exact fun producerCertification => ?_
  refine Exact.bindFree _ effect_exact fun effect => ?_
  refine Exact.bind _ u32s_exact fun parallelTransferParams _ => ?_
  refine Exact.checked (fun g known => by simp only [known]) fun _ => ?_
  refine Exact.bindWith _ (access_exact _ _)
    (fun g known => by simp only [known]) fun mutableAccess _ => ?_
  refine Exact.bind _ contract_exact fun callbackContract _ => ?_
  refine Exact.checked (fun g known => by simp only [known]) fun _ => ?_
  refine Exact.bindWith _ (retention_exact _)
    (fun g known => by simp only [known]) fun mutableRetention _ => ?_
  refine Exact.bindWith _ (viewEffects_exact _ _)
    (fun g known => by simp only [known]) fun mutableViewEffect _ => ?_
  refine Exact.bindFree _ bool_exact fun resourceHookBody => ?_
  refine Exact.final _ body_exact fun body _ => ?_
  refine Exact.checkedLast Iff.rfl fun g => ?_
  cases g
  simp [and_assoc]

def StructFits (s : IStructDef) : Prop :=
  StrFits s.name ∧ SeqFits TypeParamFits s.typeParams ∧
    SeqFits (fun field => StrFits field.1 ∧ TypeAccepted field.2) s.fields ∧ OptFits StrFits s.genericBody

theorem struct_exact : Exact readStruct writeStruct StructFits := by
  have field : Exact readField (fun field => Writer.str field.1 ++ writeType field.2)
    fun field => StrFits field.1 ∧ TypeAccepted field.2 :=
    Exact.pair _ str_exact readType_exact (fun g => by cases g; simp) fun _ _ => rfl
  have anyAlign : Exact (Reader.opt "option" Reader.u32) (Writer.opt Writer.u32) fun _ => True :=
    (opt_exact _ u32_exact).congr fun _ => by simp [OptFits]
  refine Exact.record (Exact.bind _ str_exact fun name _ => ?_)
  refine Exact.bind _ typeParams_exact fun typeParams _ => ?_
  refine Exact.bind _ (seq_exact field) fun fields _ => ?_
  refine Exact.bindFree _ anyAlign fun align => ?_
  refine Exact.bindFree _ bool_exact fun cRepr => ?_
  refine Exact.last _ (opt_exact _ str_exact) fun genericBody g _ => ?_
  cases g
  simp [and_assoc]

def EntryFits (entry : OwnedJsonGraphInterfaceEntry) : Prop :=
  StrFits entry.typeName ∧ entry.envelope.length < 2 ^ 32

theorem entry_exact : Exact readOwnedJsonEntry writeOwnedJsonEntry EntryFits := by
  refine Exact.pair _ str_exact buf_exact (fun entry => ?_) fun _ _ => rfl
  cases entry
  simp [EntryFits]

def EnumFits (e : IEnumDef) : Prop :=
  StrFits e.name ∧ SeqFits TypeParamFits e.typeParams ∧
    SeqFits (fun variant => StrFits variant.1 ∧ SeqFits TypeAccepted variant.2) e.variants ∧ OptFits StrFits e.genericBody

theorem enum_exact : Exact readEnum writeEnum EnumFits := by
  have variant : Exact readVariant (fun variant => Writer.str variant.1 ++ Writer.seq writeType variant.2)
    fun variant => StrFits variant.1 ∧ SeqFits TypeAccepted variant.2 :=
    Exact.pair _ str_exact (seq_exact readType_exact) (fun g => by cases g; simp) fun _ _ => rfl
  refine Exact.record (Exact.bind _ str_exact fun name _ => ?_)
  refine Exact.bind _ typeParams_exact fun typeParams _ => ?_
  refine Exact.bind _ (seq_exact variant) fun variants _ => ?_
  refine Exact.last _ (opt_exact _ str_exact) fun genericBody g _ => ?_
  cases g
  simp [and_assoc]

def ResourceFits (resource : IResourceDef) : Prop :=
  StrFits resource.name ∧ SeqFits TypeParamFits resource.typeParams ∧ StrFits resource.dropThunk

theorem fingerprint_exact : Exact readFingerprint (fun bytes => some bytes.1) fun _ => True := by
  suffices whole : Exact readFingerprint (fun bytes => some bytes.1) fun bytes => bytes.1.length = 16 ∧ True from
    whole.congr fun bytes => by simp [bytes.2]
  refine Exact.record (Exact.final _ (take_exact _ _) fun bytes size => ?_)
  rw [dif_pos size]
  refine Exact.pure _ (fun g => ?_) rfl
  simp [Subtype.ext_iff]

theorem resource_exact : Exact readResource writeResource ResourceFits := by
  suffices whole : Exact readResource writeResource fun resource =>
    StrFits resource.name ∧ SeqFits TypeParamFits resource.typeParams ∧ StrFits resource.dropThunk ∧ True from
    whole.congr fun s => by simp [ResourceFits]
  refine Exact.record (Exact.bind _ str_exact fun name _ => ?_)
  refine Exact.bind _ typeParams_exact fun typeParams _ => ?_
  refine Exact.bindFree _ u32_exact fun genericArity => ?_
  refine Exact.bindFree _ u32_exact fun representationVersion => ?_
  refine Exact.bind _ str_exact fun dropThunk _ => ?_
  refine Exact.last (fun g : IResourceDef => ⟨g.dropAbiFingerprint, g.fingerprintSize⟩) fingerprint_exact
    fun fingerprint g _ => ?_
  cases g
  cases fingerprint
  simp [and_assoc]

def ConstFits (c : IConst) : Prop := StrFits c.name ∧ OptFits TypeAccepted c.ty ∧ StrFits c.valueSrc

theorem const_exact : Exact readConst writeConst ConstFits := by
  refine Exact.record (Exact.bind _ str_exact fun name _ => ?_)
  refine Exact.bind _ (opt_exact _ readType_exact) fun ty _ => ?_
  refine Exact.last _ str_exact fun valueSrc g _ => ?_
  cases g
  simp [and_assoc]

def SurfaceAccepted (s : Surface) : Prop :=
  StrFits s.unit ∧ SeqFits FnAccepted s.fns ∧ SeqFits StructFits s.structs ∧ SeqFits EntryFits s.ownedJsonGraphs ∧
    SeqFits EnumFits s.enums ∧ SeqFits ResourceFits s.resources ∧ SeqFits ConstFits s.consts

theorem surface_exact : Exact readSurface writeSurface SurfaceAccepted := by
  refine Exact.record (Exact.record (Exact.bindFree _ u32_exact fun version => ?_))
  refine Exact.checked (fun g known => by simp [known.2]) fun passed => ?_
  have current : FORMAT_VERSION = version := by
    by_contra other
    rw [if_pos (Ne.symm other)] at passed
    cases passed
  refine Exact.bind _ str_exact fun unit _ => ?_
  refine Exact.bind _ (seq_exact fn_exact) fun fns _ => ?_
  refine Exact.bind _ (seq_exact struct_exact) fun structs _ => ?_
  refine Exact.bind _ (seq_exact entry_exact) fun ownedJsonGraphs _ => ?_
  refine Exact.bind _ (seq_exact enum_exact) fun enums _ => ?_
  refine Exact.bind _ (seq_exact resource_exact) fun resources _ => ?_
  refine Exact.last _ (seq_exact const_exact) fun consts g _ => ?_
  cases g
  simp [and_assoc, current]

theorem hash_exact : Exact readHash (fun hash => Writer.u64 hash.lo ++ Writer.u64 hash.hi) fun _ => True := by
  refine Exact.pair _ u64_exact u64_exact (fun hash => ?_) fun _ _ => rfl
  cases hash
  simp

def writeTrailer (trailer : Trailer) : Wire :=
  Writer.seq Writer.str trailer.capabilities ++ (Writer.u64 trailer.interfaceHash.lo ++
    (Writer.u64 trailer.interfaceHash.hi ++ (Writer.u64 trailer.implHash.lo ++ Writer.u64 trailer.implHash.hi)))

theorem trailer_exact : Exact readTrailer writeTrailer fun trailer => SeqFits StrFits trailer.capabilities := by
  suffices whole : Exact readTrailer (fun trailer : Trailer => Writer.seq Writer.str trailer.capabilities ++
    ((Writer.u64 trailer.interfaceHash.lo ++ Writer.u64 trailer.interfaceHash.hi) ++
      (Writer.u64 trailer.implHash.lo ++ Writer.u64 trailer.implHash.hi)))
    fun trailer => SeqFits StrFits trailer.capabilities ∧ True from
    whole.congrWith (fun trailer => by simp) fun trailer _ => by rw [writeTrailer, append_assoc]
  refine Exact.record (Exact.bind _ (seq_exact str_exact) fun capabilities _ => ?_)
  refine Exact.bindFree _ hash_exact fun interfaceHash => ?_
  refine Exact.last _ hash_exact fun implHash g _ => ?_
  cases g
  simp [and_assoc]

section Summary
variable {Target : Type} (checks : SummaryChecks Target) (target : Option Target)

structure Accepted (s : InterfaceSummary) : Prop where
  surface : SurfaceAccepted s.toSurface
  capabilities : SeqFits StrFits s.capabilities
  transferRoots : checks.transferRootsAreBorrowCapable s = true
  entries : checks.validateEntries s.structs s.ownedJsonGraphs target = .ok ()
  hash : ∀ bytes, encodeInterfaceSurface s = some bytes → Hash128.of bytes = s.interfaceHash
  viewEffects : validateMutableViewEffects s = .ok ()
  dropStates : checks.dropStateEffectMismatch s = false

theorem validateSummary_ok (surface : Bytes) (s : InterfaceSummary) :
    validateSummary checks target surface s = .ok () ↔
      checks.transferRootsAreBorrowCapable s = true ∧ checks.validateEntries s.structs s.ownedJsonGraphs target = .ok () ∧
        Hash128.of surface = s.interfaceHash ∧ validateMutableViewEffects s = .ok () ∧
        checks.dropStateEffectMismatch s = false := by
  unfold validateSummary
  cases checks.transferRootsAreBorrowCapable s <;> cases checks.validateEntries s.structs s.ownedJsonGraphs target <;>
    by_cases same : Hash128.of surface = s.interfaceHash <;> cases validateMutableViewEffects s <;>
    cases checks.dropStateEffectMismatch s <;>
    simp [refuse, invalidSummary, same, Bind.bind, Except.bind, Except.mapError, throw, throwThe, MonadExceptOf.throw]

def trailerOf (s : InterfaceSummary) : Trailer := ⟨s.capabilities, s.interfaceHash, s.implHash⟩

theorem serialize_parts (s : InterfaceSummary) : serialize s = writeSurface s.toSurface ++ writeTrailer (trailerOf s) := rfl

theorem impl_ok (b : Bytes) (s : InterfaceSummary) :
    deserializeImpl checks b target = .ok s ↔ ∃ rest, readSurface b = .ok (s.toSurface, rest) ∧
      readTrailer rest = .ok (trailerOf s, []) ∧
      validateSummary checks target (b.take (b.length - rest.length)) s = .ok () := by
  unfold deserializeImpl
  cases readSurface b with
  | error e => simp [Bind.bind, Except.bind]
  | ok found =>
    obtain ⟨surface, rest⟩ := found
    dsimp only [Bind.bind, Except.bind]
    cases second : readTrailer rest with
    | error e =>
      constructor
      · intro ok
        cases ok
      · rintro ⟨_, same, read, _⟩
        cases same
        rw [second] at read
        cases read
    | ok found =>
      obtain ⟨trailer, rest'⟩ := found
      constructor
      · intro ok
        dsimp only at ok
        split_ifs at ok with ended
        split at ok
        · cases ok
        · rename_i valid
          cases ok
          exact ⟨rest, rfl, by rw [second, not_not.mp ended]; rfl, valid⟩
      · rintro ⟨_, same, read, valid⟩
        cases same
        rw [second] at read
        cases read
        have rebuilt : (⟨s.toSurface, (trailerOf s).capabilities, (trailerOf s).interfaceHash,
          (trailerOf s).implHash⟩ : InterfaceSummary) = s := rfl
        dsimp only
        rw [if_neg (not_not.mpr rfl), rebuilt, valid]
        rfl

theorem impl_canonical (b : Bytes) (s : InterfaceSummary) :
    deserializeImpl checks b target = .ok s ↔ Accepted checks target s ∧ serialize s = some b := by
  rw [impl_ok, serialize_parts, append_some]
  constructor
  · rintro ⟨rest, first, second, valid⟩
    obtain ⟨surface, front, written, rfl⟩ := surface_exact.sound b _ rest first
    obtain ⟨capabilities, back, writtenBack, rfl⟩ := trailer_exact.sound rest _ [] second
    have consumed : (front ++ (back ++ [])).take ((front ++ (back ++ [])).length - (back ++ []).length) = front := by
      simp
    rw [consumed, validateSummary_ok] at valid
    obtain ⟨transferRoots, entries, hash, viewEffects, dropStates⟩ := valid
    refine ⟨⟨surface, capabilities, transferRoots, entries, ?_, viewEffects, dropStates⟩,
      front, back, written, writtenBack, by rw [List.append_nil]⟩
    intro bytes encoded
    cases written.symm.trans encoded
    exact hash
  · rintro ⟨accepted, front, back, written, writtenBack, rfl⟩
    obtain ⟨front', written', reads⟩ := surface_exact.complete _ accepted.surface
    obtain ⟨back', writtenBack', readsBack⟩ := trailer_exact.complete (trailerOf s) accepted.capabilities
    cases written.symm.trans written'
    cases writtenBack.symm.trans writtenBack'
    refine ⟨back, reads back, ?_, ?_⟩
    · have read := readsBack []
      rwa [List.append_nil] at read
    · rw [List.length_append, Nat.add_sub_cancel, List.take_left, validateSummary_ok]
      exact ⟨accepted.transferRoots, accepted.entries, accepted.hash front written, accepted.viewEffects,
        accepted.dropStates⟩

/-- The decoder accepts exactly the spellings of the summaries that pass its checks:
what it decoded is written back byte for byte, and an accepted summary is written and
read back. -/
theorem artifact_canonical (checks : SummaryChecks Target) :
    (∀ b s, deserialize checks b = .ok s → serialize s = some b ∧ Accepted checks none s) ∧
      ∀ s, Accepted checks none s → ∃ b, serialize s = some b ∧ deserialize checks b = .ok s := by
  constructor
  · intro b s ok
    obtain ⟨accepted, written⟩ := (impl_canonical checks none b s).mp ok
    exact ⟨written, accepted⟩
  · intro s accepted
    obtain ⟨front, written, _⟩ := surface_exact.complete _ accepted.surface
    obtain ⟨back, writtenBack, _⟩ := trailer_exact.complete (trailerOf s) accepted.capabilities
    have whole : serialize s = some (front ++ back) := by
      exact append_some.mpr ⟨front, back, written, writtenBack, rfl⟩
    exact ⟨front ++ back, whole, (impl_canonical checks none _ s).mpr ⟨accepted, whole⟩⟩

/-- No accepted artifact is cut off or continued: the format is prefix-free. -/
theorem artifacts_prefix_free :
    IsAntichain (· <+: ·) {b | ∃ s, deserializeImpl checks b target = .ok s} := by
  rintro b ⟨s, ok⟩ _ ⟨s', ok'⟩ differ ⟨more, rfl⟩
  obtain ⟨rest, first, second, -⟩ := (impl_ok checks target b s).mp ok
  obtain ⟨rest', first', second', -⟩ := (impl_ok checks target _ s').mp ok'
  rw [surface_exact.extend more first] at first'
  cases (Prod.mk.inj (Except.ok.inj first')).2
  rw [trailer_exact.extend more second] at second'
  cases (Prod.mk.inj (Except.ok.inj second')).2
  exact differ (List.append_nil b).symm

end Summary

end Align.InterfaceCanonical
