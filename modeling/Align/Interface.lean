import Align.Codec

/-! The interface summary of a compilation unit: what another unit may know of it.
Types are recorded by name, so that no process-local number is part of a summary. The
order of the cases of the callback records is their order on the wire, which the
derived comparisons follow. -/
namespace Align.Interface
open Codec

inductive ParamMode where
  | byValue
  | out
  | borrow
  | borrowMut
  deriving DecidableEq

inductive Effect where
  | pure
  | impure
  | unknown
  deriving DecidableEq

inductive ProducerCertification where
  | revalidateGenericBody
  | validatedBody
  deriving DecidableEq

inductive ReturnCleanupAbi where
  | none
  | dynamicBit
  deriving DecidableEq

inductive DropStateEffect where
  | notApplicable
  | invariant
  | mayChange
  | deferred
  deriving DecidableEq

inductive ReturnBorrowSummary where
  | none
  | roots (params captures : List UInt32)

inductive ReturnRegionSummary where
  | none
  | roots (params captures : List UInt32)

/-- A parameter of a signature: names are not part of an interface. -/
structure ParamOf (τ : Type) where
  mode : ParamMode
  ty : τ

inductive IType where
  | named (path : String) (args : List IType)
  | fixedArray (element : IType) (length : UInt32)
  | tuple (elems : List IType)
  | fn (params : List (ParamOf IType)) (ret : IType) (returnBorrow : ReturnBorrowSummary)
      (returnRegion : ReturnRegionSummary) (returnCleanup : ReturnCleanupAbi)

abbrev IParam := ParamOf IType

structure ITypeParam where
  name : String
  bound : Option String

inductive MutableRetentionRoot where
  | contained (index : UInt32)
  | storage (index : UInt32)
  deriving DecidableEq, Ord

def MutableRetentionRoot.index : MutableRetentionRoot → UInt32
  | .contained index => index
  | .storage index => index

structure MutableRetentionDestination where
  mayMutate : Bool
  roots : List MutableRetentionRoot

abbrev MutableRetentionSummary := Option (List MutableRetentionDestination)

inductive MutableAccessRoot where
  | contained (index : UInt32)
  | storage (index : UInt32)
  deriving DecidableEq, Ord

def MutableAccessRoot.index : MutableAccessRoot → UInt32
  | .contained index => index
  | .storage index => index

inductive CallbackProjection where
  | structField (index : UInt32)
  | tupleElement (index : UInt32)
  | enumPayload (variant index : UInt32)
  | optionSome
  | resultOk
  | resultErr
  | arrayElement
  deriving DecidableEq, Ord

structure CallbackInput where
  parameter : UInt32
  path : List CallbackProjection
  deriving DecidableEq, Ord

inductive CallbackRead where
  | environment
  | argument (index : UInt32)
  deriving DecidableEq, Ord

structure CallbackRequirement where
  input : CallbackInput
  read : CallbackRead
  deriving DecidableEq, Ord

structure CallbackEffects where
  environmentWrite : Bool
  argumentWrites : List UInt32
  deriving DecidableEq, Ord

inductive CallbackSource where
  | parameter (input : CallbackInput)
  | known (effects : CallbackEffects)
  | unknown
  deriving DecidableEq, Ord

structure CallbackReturn where
  path : List CallbackProjection
  sources : List CallbackSource

structure CallbackContract where
  requirements : List CallbackRequirement
  returns : List CallbackReturn

structure ConditionalAccess where
  requirement : CallbackRequirement
  roots : List MutableAccessRoot

structure MutableAccessEffects where
  direct : List MutableAccessRoot
  conditional : List ConditionalAccess

abbrev MutableAccessSummary := Option MutableAccessEffects

structure MutableViewEffect where
  mayWriteOriginal : Bool
  mustWriteOriginalElement : Bool
  mayRebind : Bool
  mustRebind : Bool
  writeRoots : List MutableRetentionRoot
  rebindRoots : List MutableRetentionRoot

abbrev MutableViewEffectSummary := Option (List (Option MutableViewEffect))

structure IInlineExtern where
  link : Option String
  name : String
  params : List IType
  ret : IType

inductive IFnBody where
  | absent
  | genericTemplate (source : String)
  | concreteInline (policyVersion : UInt32) (source : String) (externs : List IInlineExtern)

structure IFnSig where
  name : String
  typeParams : List ITypeParam
  params : List IParam
  ret : IType
  returnBorrow : ReturnBorrowSummary
  returnRegion : ReturnRegionSummary
  returnCleanup : ReturnCleanupAbi
  dropStateEffects : List DropStateEffect
  producerCertification : ProducerCertification
  effect : Effect
  parallelTransferParams : List UInt32
  mutableAccess : MutableAccessSummary
  callbackContract : Option CallbackContract
  mutableRetention : MutableRetentionSummary
  mutableViewEffect : MutableViewEffectSummary
  resourceHookBody : Bool
  body : IFnBody

structure IStructDef where
  name : String
  typeParams : List ITypeParam
  fields : List (String × IType)
  align : Option UInt32
  cRepr : Bool
  genericBody : Option String

structure IEnumDef where
  name : String
  typeParams : List ITypeParam
  variants : List (String × List IType)
  genericBody : Option String

/-- The fingerprint is an array of 16 bytes. -/
structure IResourceDef where
  name : String
  typeParams : List ITypeParam
  genericArity : UInt32
  representationVersion : UInt32
  dropThunk : String
  dropAbiFingerprint : Bytes
  fingerprintSize : dropAbiFingerprint.length = 16

structure IConst where
  name : String
  ty : Option IType
  valueSrc : String

structure OwnedJsonGraphInterfaceEntry where
  typeName : String
  envelope : Bytes

structure Hash128 where
  lo : UInt64
  hi : UInt64
  deriving DecidableEq

/-- What `interface_hash` is computed of. -/
structure Surface where
  unit : String
  fns : List IFnSig
  structs : List IStructDef
  ownedJsonGraphs : List OwnedJsonGraphInterfaceEntry
  enums : List IEnumDef
  resources : List IResourceDef
  consts : List IConst

structure InterfaceSummary extends Surface where
  capabilities : List String
  interfaceHash : Hash128
  implHash : Hash128

/-! Checks on the records, shared by the decoder and the importer. -/

/-- `windows(2).any(|pair| pair[0] >= pair[1])`. -/
def outOfOrder {α : Type} [Ord α] : List α → Bool
  | a :: b :: rest => (compare a b).isGE || outOfOrder (b :: rest)
  | _ => false

def validateCallbackRecordOrder (contract : Option CallbackContract) (parameterCount : Nat) (generic : Bool) :
    Except String Unit :=
  match contract with
  | none => .ok ()
  | some contract =>
      let inputValid (input : CallbackInput) : Bool := input.parameter.toNat < parameterCount
      if generic || outOfOrder contract.requirements || contract.requirements.any (fun r => !inputValid r.input) ||
          outOfOrder (contract.returns.map CallbackReturn.path) then
        .error "callback contract canonical structure"
      else
        contract.returns.forM fun row =>
          if outOfOrder row.sources then .error "callback return canonical structure"
          else
            row.sources.forM fun source =>
              match source with
              | .parameter input => if !inputValid input then .error "callback source parameter" else .ok ()
              | .known effects =>
                  if outOfOrder effects.argumentWrites then .error "callback source effects order" else .ok ()
              | .unknown => .ok ()

def validateMutableAccess (summary : MutableAccessSummary) (parameterCount : Nat) (generic : Bool) :
    Except String Unit :=
  match summary with
  | none => .ok ()
  | some effects =>
      let outside (root : MutableAccessRoot) : Bool := parameterCount ≤ root.index.toNat
      if generic || outOfOrder effects.direct || effects.direct.any outside then .error "mutable-access roots"
      else if outOfOrder (effects.conditional.map ConditionalAccess.requirement) then
        .error "conditional access ordering"
      else
        effects.conditional.forM fun row =>
          if decide (parameterCount ≤ row.requirement.input.parameter.toNat) || row.roots.isEmpty ||
              outOfOrder row.roots || row.roots.any outside then
            .error "conditional access roots"
          else .ok ()

def validateMutableRetention (summary : MutableRetentionSummary) (modes : List ParamMode) (generic : Bool) :
    Except String Unit :=
  match summary with
  | none => .ok ()
  | some destinations => do
      if destinations.length ≠ modes.length then throw "mutable-retention destination arity mismatch"
      (destinations.zip modes).forM fun (destination, mode) =>
        if destination.roots.any fun root => modes.length ≤ root.index.toNat then
          .error "mutable-retention source index out of range"
        else if outOfOrder destination.roots then .error "mutable-retention roots are not strictly ordered"
        else if !destination.roots.isEmpty && !(mode = .borrowMut || mode = .out) then
          .error "mutable-retention roots require a mutable destination"
        else if destination.mayMutate && mode ≠ .borrowMut then
          .error "mutable-retention mutation flag requires borrow mut"
        else .ok ()
      if generic then throw "generic templates cannot carry mutable-retention summaries"

def validateMutableViewEffect (summary : MutableViewEffectSummary) (eligible : List Bool) (generic : Bool) :
    Except String Unit :=
  match summary with
  | none => .ok ()
  | some effects =>
      if generic || effects.length ≠ eligible.length then .error "mutable-view-effect count"
      else
        (effects.zip eligible).forM fun (effect, isEligible) =>
          if effect.isSome ≠ isEligible then .error "mutable-view-effect eligibility"
          else
            match effect with
            | none => .ok ()
            | some effect =>
                if (effect.mustWriteOriginalElement && !effect.mayWriteOriginal) ||
                    (effect.mustRebind && !effect.mayRebind) then
                  .error "mutable-view-effect flags"
                else if (!effect.mayRebind && !effect.rebindRoots.isEmpty) || outOfOrder effect.writeRoots ||
                    outOfOrder effect.rebindRoots ||
                    (effect.writeRoots ++ effect.rebindRoots).any (fun root => eligible.length ≤ root.index.toNat) then
                  .error "mutable-view-effect roots"
                else .ok ()

/-- Only a `borrow mut` parameter of type `slice<_>` or `soa<_>` has a view effect. -/
def validateMutableViewEffectSignature (function : IFnSig) : Except String Unit :=
  if function.mutableViewEffect.isSome && function.producerCertification ≠ .validatedBody then
    .error "mutable-view-effect eligibility"
  else
    let eligible := function.params.map fun parameter =>
      parameter.mode = .borrowMut &&
        match parameter.ty with
        | .named path args => (path = "slice" || path = "soa") && args.length = 1
        | _ => false
    validateMutableViewEffect function.mutableViewEffect eligible !function.typeParams.isEmpty

def validateMutableViewEffects (summary : InterfaceSummary) : Except String Unit :=
  summary.fns.forM validateMutableViewEffectSignature

end Align.Interface
