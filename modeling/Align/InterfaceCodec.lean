import Align.Interface
import Align.WyHash

/-! The artifact form of an interface summary, as `align_interface::codec` writes and
reads it. A length that its `u32` prefix cannot hold makes the writer panic, which is
`none` here. The reader's cursor is the list of the bytes that are left, and its nesting
budget counts down where the source's depth counts up. -/
namespace Align.InterfaceCodec
open Codec Interface

def FORMAT_VERSION : UInt32 := 21

def MAX_TYPE_DEPTH : Nat := 128

def INLINE_BODY_POLICY_VERSION : UInt32 := 3

namespace Writer

def u8 (v : UInt8) : Wire := some [v]

def bool (v : Bool) : Wire := u8 v.toUInt8

def u32 (v : UInt32) : Wire := some (toLe 4 v.toNat)

def u64 (v : UInt64) : Wire := some (toLe 8 v.toNat)

/-- `u32_len`, then the prefix. -/
def len (n : Nat) : Wire := if n < 2 ^ 32 then u32 (UInt32.ofNat n) else none

def opt {α : Type} (write : α → Wire) : Option α → Wire
  | some x => u8 1 ++ write x
  | none => u8 0

def strBytes (s : String) : Bytes := s.toByteArray.data.toList

def buf (bytes : Bytes) : Wire := len bytes.length ++ (some bytes : Wire)

def str (s : String) : Wire := buf (strBytes s)

def optU32 : Option UInt32 → Wire := opt u32

def optStr : Option String → Wire := opt str

def seq {α : Type} (write : α → Wire) (items : List α) : Wire := len items.length ++ each write items

end Writer

open Writer (u8 bool u32 u64 len str optU32 optStr seq)

def modeTag : ParamMode → UInt8
  | .byValue => 0
  | .out => 1
  | .borrow => 2
  | .borrowMut => 3

def writeRoots (params captures : List UInt32) : Wire := seq u32 params ++ seq u32 captures

def writeReturnBorrow : ReturnBorrowSummary → Wire
  | .none => u8 0
  | .roots params captures => u8 1 ++ writeRoots params captures

def writeReturnRegion : ReturnRegionSummary → Wire
  | .none => u8 0
  | .roots params captures => u8 1 ++ writeRoots params captures

def cleanupTag : ReturnCleanupAbi → UInt8
  | .none => 0
  | .dynamicBit => 1

def writeReturnCleanup (value : ReturnCleanupAbi) : Wire := u8 (cleanupTag value)

mutual

def writeType : IType → Wire
  | .named path args => u8 0 ++ (str path ++ (len args.length ++ writeTypes args))
  | .tuple elems => u8 1 ++ (len elems.length ++ writeTypes elems)
  | .fixedArray element length => u8 3 ++ (writeType element ++ u32 length)
  | .fn params ret returnBorrow returnRegion returnCleanup =>
      u8 2 ++ (len params.length ++ writeParams params ++ (writeType ret ++ (writeReturnBorrow returnBorrow ++
        (writeReturnRegion returnRegion ++ writeReturnCleanup returnCleanup))))

def writeTypes : List IType → Wire
  | [] => some []
  | t :: rest => writeType t ++ writeTypes rest

def writeParam : ParamOf IType → Wire
  | ⟨mode, ty⟩ => u8 (modeTag mode) ++ writeType ty

def writeParams : List (ParamOf IType) → Wire
  | [] => some []
  | p :: rest => writeParam p ++ writeParams rest

end

def writeTypeParams (tps : List ITypeParam) : Wire := seq (fun tp => str tp.name ++ optStr tp.bound) tps

def effectTag : Effect → UInt8
  | .pure => 0
  | .impure => 1
  | .unknown => 2

def writeEffect (e : Effect) : Wire := u8 (effectTag e)

def certificationTag : ProducerCertification → UInt8
  | .revalidateGenericBody => 0
  | .validatedBody => 1

def writeProducerCertification (value : ProducerCertification) : Wire := u8 (certificationTag value)

def writeCallbackProjection : CallbackProjection → Wire
  | .structField i => u8 0 ++ u32 i
  | .tupleElement i => u8 1 ++ u32 i
  | .enumPayload variant index => u8 2 ++ (u32 variant ++ u32 index)
  | .optionSome => u8 3
  | .resultOk => u8 4
  | .resultErr => u8 5
  | .arrayElement => u8 6

def writeCallbackPath (path : List CallbackProjection) : Wire := seq writeCallbackProjection path

def writeCallbackInput (input : CallbackInput) : Wire := u32 input.parameter ++ writeCallbackPath input.path

def writeCallbackRead : CallbackRead → Wire
  | .environment => u8 0
  | .argument i => u8 1 ++ u32 i

def writeCallbackRequirement (row : CallbackRequirement) : Wire :=
  writeCallbackInput row.input ++ writeCallbackRead row.read

def writeCallbackSource : CallbackSource → Wire
  | .parameter input => u8 0 ++ writeCallbackInput input
  | .known effects => u8 1 ++ (bool effects.environmentWrite ++ seq u32 effects.argumentWrites)
  | .unknown => u8 2

def writeCallbackReturn (row : CallbackReturn) : Wire := writeCallbackPath row.path ++ seq writeCallbackSource row.sources

def writeCallbackContract : Option CallbackContract → Wire :=
  Writer.opt fun contract => seq writeCallbackRequirement contract.requirements ++ seq writeCallbackReturn contract.returns

def writeAccessRoot : MutableAccessRoot → Wire
  | .contained i => u8 0 ++ u32 i
  | .storage i => u8 1 ++ u32 i

def writeConditionalAccess (row : ConditionalAccess) : Wire :=
  writeCallbackRequirement row.requirement ++ seq writeAccessRoot row.roots

def writeMutableAccess : MutableAccessSummary → Wire :=
  Writer.opt fun effects => seq writeAccessRoot effects.direct ++ seq writeConditionalAccess effects.conditional

def retentionTag : MutableRetentionRoot → UInt8
  | .contained _ => 0
  | .storage _ => 1

def writeRetentionRoot (root : MutableRetentionRoot) : Wire := u8 (retentionTag root) ++ u32 root.index

def writeRetentionDestination (destination : MutableRetentionDestination) : Wire :=
  bool destination.mayMutate ++ seq writeRetentionRoot destination.roots

def writeMutableRetention : MutableRetentionSummary → Wire := Writer.opt (seq writeRetentionDestination)

def viewFlags (effect : MutableViewEffect) : UInt8 :=
  effect.mayWriteOriginal.toUInt8 ||| (effect.mustWriteOriginalElement.toUInt8 <<< 1) |||
    (effect.mayRebind.toUInt8 <<< 2) ||| (effect.mustRebind.toUInt8 <<< 3)

def writeViewEffect (effect : MutableViewEffect) : Wire :=
  u8 (viewFlags effect) ++ (seq writeRetentionRoot effect.writeRoots ++ seq writeRetentionRoot effect.rebindRoots)

def writeMutableViewEffect : MutableViewEffectSummary → Wire := Writer.opt (seq (Writer.opt writeViewEffect))

def writeInlineExtern (external : IInlineExtern) : Wire :=
  optStr external.link ++ (str external.name ++ (seq writeType external.params ++ writeType external.ret))

def writeFnBody : IFnBody → Wire
  | .absent => u8 0
  | .genericTemplate source => u8 1 ++ str source
  | .concreteInline policyVersion source externs =>
      u8 2 ++ (u32 policyVersion ++ (str source ++ seq writeInlineExtern externs))

def dropStateTag : DropStateEffect → UInt8
  | .notApplicable => 0
  | .invariant => 1
  | .mayChange => 2
  | .deferred => 3

def writeDropStateEffects (effects : List DropStateEffect) : Wire := seq (fun effect => u8 (dropStateTag effect)) effects

def writeFn (f : IFnSig) : Wire :=
  str f.name ++ (writeTypeParams f.typeParams ++ (seq writeParam f.params ++ (writeType f.ret ++
    (writeReturnBorrow f.returnBorrow ++ (writeReturnRegion f.returnRegion ++ (writeReturnCleanup f.returnCleanup ++
      (writeDropStateEffects f.dropStateEffects ++ (writeProducerCertification f.producerCertification ++
        (writeEffect f.effect ++ (seq u32 f.parallelTransferParams ++ (writeMutableAccess f.mutableAccess ++
          (writeCallbackContract f.callbackContract ++ (writeMutableRetention f.mutableRetention ++
            (writeMutableViewEffect f.mutableViewEffect ++ (bool f.resourceHookBody ++ writeFnBody f.body)))))))))))))))

def writeStruct (s : IStructDef) : Wire :=
  str s.name ++ (writeTypeParams s.typeParams ++ (seq (fun field => str field.1 ++ writeType field.2) s.fields ++
    (optU32 s.align ++ (bool s.cRepr ++ optStr s.genericBody))))

def writeOwnedJsonEntry (entry : OwnedJsonGraphInterfaceEntry) : Wire := str entry.typeName ++ Writer.buf entry.envelope

def writeEnum (e : IEnumDef) : Wire :=
  str e.name ++ (writeTypeParams e.typeParams ++
    (seq (fun variant => str variant.1 ++ seq writeType variant.2) e.variants ++ optStr e.genericBody))

def writeResource (resource : IResourceDef) : Wire :=
  str resource.name ++ (writeTypeParams resource.typeParams ++ (u32 resource.genericArity ++
    (u32 resource.representationVersion ++ (str resource.dropThunk ++ (some resource.dropAbiFingerprint : Wire)))))

def writeConst (c : IConst) : Wire := str c.name ++ (Writer.opt writeType c.ty ++ str c.valueSrc)

def writeSurface (s : Surface) : Wire :=
  u32 FORMAT_VERSION ++ (str s.unit ++ (seq writeFn s.fns ++ (seq writeStruct s.structs ++
    (seq writeOwnedJsonEntry s.ownedJsonGraphs ++ (seq writeEnum s.enums ++ (seq writeResource s.resources ++
      seq writeConst s.consts))))))

def encodeInterfaceSurface (s : InterfaceSummary) : Wire := writeSurface s.toSurface

def serialize (s : InterfaceSummary) : Wire :=
  writeSurface s.toSurface ++ (seq str s.capabilities ++ (u64 s.interfaceHash.lo ++ (u64 s.interfaceHash.hi ++
    (u64 s.implHash.lo ++ u64 s.implHash.hi))))

inductive DecodeError where
  | unknownVersion (version : UInt32)
  | truncated
  | badTag (what : String) (tag : UInt8)
  | badUtf8
  | trailingBytes
  | interfaceHashMismatch
  | invalidSummary (reason : String)
  | invalidOwnedJson (reason : String)
  deriving DecidableEq

abbrev Read (α : Type) := Reader DecodeError α

namespace Reader

def u8 : Read UInt8 := byte .truncated

def bool : Read Bool := do
  match ← u8 with
  | 0 => pure false
  | 1 => pure true
  | tag => throw (.badTag "bool" tag)

def u32 : Read UInt32 := do
  let bytes ← take .truncated 4
  pure (UInt32.ofNat (ofLe bytes))

def u64 : Read UInt64 := do
  let bytes ← take .truncated 8
  pure (UInt64.ofNat (ofLe bytes))

def opt {α : Type} (what : String) (read : Read α) : Read (Option α) := do
  match ← u8 with
  | 0 => pure none
  | 1 => some <$> read
  | tag => throw (.badTag what tag)

def buf : Read Bytes := do
  let n ← u32
  take .truncated n.toNat

def fromUtf8 (bytes : Bytes) : Read String :=
  if valid : bytes.toByteArray.IsValidUTF8 then pure (String.ofByteArray bytes.toByteArray valid) else throw .badUtf8

def str : Read String := do
  let bytes ← buf
  fromUtf8 bytes

def optU32 : Read (Option UInt32) := opt "option" u32

def optStr : Read (Option String) := opt "option" str

def seq {α : Type} (read : Read α) : Read (List α) := do
  let n ← u32
  times read n.toNat

end Reader

/-- `Err(reason)` of a check, as the decoder reports it. -/
def invalidSummary (verdict : Except String Unit) : Except DecodeError Unit := verdict.mapError .invalidSummary

def refuse (bad : Bool) (reason : String) : Except DecodeError Unit :=
  if bad then .error (.invalidSummary reason) else .ok ()

def readMode : Read ParamMode := do
  match ← Reader.u8 with
  | 0 => pure .byValue
  | 1 => pure .out
  | 2 => pure .borrow
  | 3 => pure .borrowMut
  | tag => throw (.badTag "parameter mode" tag)

def validateRoots (params captures : List UInt32) (paramCount : Nat) : Except DecodeError Unit := do
  refuse (outOfOrder params) "parameter roots must be strictly increasing"
  refuse (params.any fun root => paramCount ≤ root.toNat) "parameter root is outside the signature"
  refuse (!captures.isEmpty) "capture roots are forbidden in exported interfaces"
  refuse params.isEmpty "an empty root set must use the canonical None tag"

def validateTransferRoots (params : List UInt32) (paramCount : Nat) : Except DecodeError Unit := do
  refuse (outOfOrder params) "parallel-transfer roots must be strictly increasing"
  refuse (params.any fun root => paramCount ≤ root.toNat) "parallel-transfer root is outside the signature"

def readRoots (paramCount : Nat) : Read (List UInt32 × List UInt32) := do
  let params ← Reader.seq Reader.u32
  let captures ← Reader.seq Reader.u32
  check (validateRoots params captures paramCount)
  pure (params, captures)

def readReturnBorrow (paramCount : Nat) : Read ReturnBorrowSummary := do
  match ← Reader.u8 with
  | 0 => pure .none
  | 1 => (fun roots => .roots roots.1 roots.2) <$> readRoots paramCount
  | tag => throw (.badTag "return-borrow summary" tag)

def readReturnRegion (paramCount : Nat) : Read ReturnRegionSummary := do
  match ← Reader.u8 with
  | 0 => pure .none
  | 1 => (fun roots => .roots roots.1 roots.2) <$> readRoots paramCount
  | tag => throw (.badTag "return-region summary" tag)

def readReturnCleanup : Read ReturnCleanupAbi := do
  match ← Reader.u8 with
  | 0 => pure .none
  | 1 => pure .dynamicBit
  | tag => throw (.badTag "return cleanup ABI" tag)

/-- A parameter whose type is read by `readType`. -/
def readParamWith (readType : Read IType) : Read IParam := do
  let mode ← readMode
  let ty ← readType
  pure ⟨mode, ty⟩

/-- `read_type_at_depth`, where `left` more records may be nested. -/
def readTypeAtDepth : Nat → Read IType
  | 0 => throw (.invalidSummary "interface type nesting exceeds 128 records")
  | left + 1 => do
      match ← Reader.u8 with
      | 0 => do
          let path ← Reader.str
          let args ← Reader.seq (readTypeAtDepth left)
          pure (.named path args)
      | 1 => do
          let elems ← Reader.seq (readTypeAtDepth left)
          pure (.tuple elems)
      | 2 => do
          let params ← Reader.seq (readParamWith (readTypeAtDepth left))
          let ret ← readTypeAtDepth left
          let returnBorrow ← readReturnBorrow params.length
          let returnRegion ← readReturnRegion params.length
          let returnCleanup ← readReturnCleanup
          pure (.fn params ret returnBorrow returnRegion returnCleanup)
      | 3 => do
          let element ← readTypeAtDepth left
          let length ← Reader.u32
          pure (.fixedArray element length)
      | tag => throw (.badTag "type" tag)

def readType : Read IType := readTypeAtDepth MAX_TYPE_DEPTH

def readParam : Read IParam := readParamWith readType

def readTypeParam : Read ITypeParam := do
  let name ← Reader.str
  let bound ← Reader.optStr
  pure ⟨name, bound⟩

def readTypeParams : Read (List ITypeParam) := Reader.seq readTypeParam

def readEffect : Read Effect := do
  match ← Reader.u8 with
  | 0 => pure .pure
  | 1 => pure .impure
  | 2 => pure .unknown
  | tag => throw (.badTag "effect" tag)

def readProducerCertification : Read ProducerCertification := do
  match ← Reader.u8 with
  | 0 => pure .revalidateGenericBody
  | 1 => pure .validatedBody
  | tag => throw (.badTag "producer certification" tag)

def readDropStateEffect : Read DropStateEffect := do
  match ← Reader.u8 with
  | 0 => pure .notApplicable
  | 1 => pure .invariant
  | 2 => pure .mayChange
  | 3 => pure .deferred
  | tag => throw (.badTag "drop-state effect" tag)

def readCallbackProjection : Read CallbackProjection := do
  match ← Reader.u8 with
  | 0 => .structField <$> Reader.u32
  | 1 => .tupleElement <$> Reader.u32
  | 2 => do
      let variant ← Reader.u32
      let index ← Reader.u32
      pure (.enumPayload variant index)
  | 3 => pure .optionSome
  | 4 => pure .resultOk
  | 5 => pure .resultErr
  | 6 => pure .arrayElement
  | tag => throw (.badTag "callback projection" tag)

def readCallbackPath : Read (List CallbackProjection) := Reader.seq readCallbackProjection

def readCallbackInput : Read CallbackInput := do
  let parameter ← Reader.u32
  let path ← readCallbackPath
  pure ⟨parameter, path⟩

def readCallbackRead : Read CallbackRead := do
  match ← Reader.u8 with
  | 0 => pure .environment
  | 1 => .argument <$> Reader.u32
  | tag => throw (.badTag "callback read" tag)

def readCallbackRequirement : Read CallbackRequirement := do
  let input ← readCallbackInput
  let read ← readCallbackRead
  pure ⟨input, read⟩

def readCallbackEffects : Read CallbackEffects := do
  let environmentWrite ← Reader.bool
  let argumentWrites ← Reader.seq Reader.u32
  pure ⟨environmentWrite, argumentWrites⟩

def readCallbackSource : Read CallbackSource := do
  match ← Reader.u8 with
  | 0 => .parameter <$> readCallbackInput
  | 1 => .known <$> readCallbackEffects
  | 2 => pure .unknown
  | tag => throw (.badTag "callback source" tag)

def readCallbackReturn : Read CallbackReturn := do
  let path ← readCallbackPath
  let sources ← Reader.seq readCallbackSource
  pure ⟨path, sources⟩

def readCallbackContract : Read (Option CallbackContract) :=
  Reader.opt "callback contract" do
    let requirements ← Reader.seq readCallbackRequirement
    let returns ← Reader.seq readCallbackReturn
    pure ⟨requirements, returns⟩

def readAccessRoot : Read MutableAccessRoot := do
  match ← Reader.u8 with
  | 0 => .contained <$> Reader.u32
  | 1 => .storage <$> Reader.u32
  | tag => throw (.badTag "mutable-access root" tag)

def readConditionalAccess : Read ConditionalAccess := do
  let requirement ← readCallbackRequirement
  let roots ← Reader.seq readAccessRoot
  pure ⟨requirement, roots⟩

def readAccessEffects : Read MutableAccessEffects := do
  let direct ← Reader.seq readAccessRoot
  let conditional ← Reader.seq readConditionalAccess
  pure ⟨direct, conditional⟩

def readMutableAccess (parameterCount : Nat) (generic : Bool) : Read MutableAccessSummary := do
  let summary ← Reader.opt "mutable-access option" readAccessEffects
  check (invalidSummary (validateMutableAccess summary parameterCount generic))
  pure summary

def readRetentionRoot : Read MutableRetentionRoot := do
  match ← Reader.u8 with
  | 0 => .contained <$> Reader.u32
  | 1 => .storage <$> Reader.u32
  | tag => throw (.badTag "mutable-retention root" tag)

def readRetentionDestination : Read MutableRetentionDestination := do
  let mayMutate ← Reader.bool
  let roots ← Reader.seq readRetentionRoot
  pure ⟨mayMutate, roots⟩

def readMutableRetention (params : List IParam) (generic : Bool) : Read MutableRetentionSummary := do
  let summary ← Reader.opt "mutable-retention option" (Reader.seq readRetentionDestination)
  check (invalidSummary (validateMutableRetention summary (params.map ParamOf.mode) generic))
  pure summary

def readViewOrdinal (tag : UInt8) : Read UInt32 :=
  if tag = 0 ∨ tag = 1 then Reader.u32 else throw (.badTag "mutable-view-effect root" tag)

/-- One root of a view effect, behind `previous`. -/
def readViewRoot (parameterCount : Nat) (previous : Option MutableRetentionRoot) : Read MutableRetentionRoot := do
  let tag ← Reader.u8
  let ordinal ← readViewOrdinal tag
  check (refuse (parameterCount ≤ ordinal.toNat) "mutable-view-effect roots")
  let root := if tag = 0 then MutableRetentionRoot.contained ordinal else .storage ordinal
  check (refuse (previous.any fun previous => (compare previous root).isGE) "mutable-view-effect roots")
  pure root

def viewRootsLoop (parameterCount : Nat) : Nat → Option MutableRetentionRoot → Read (List MutableRetentionRoot)
  | 0, _ => pure []
  | count + 1, previous => do
      let root ← readViewRoot parameterCount previous
      let roots ← viewRootsLoop parameterCount count (some root)
      pure (root :: roots)

def readViewRoots (parameterCount : Nat) : Read (List MutableRetentionRoot) := do
  let count ← Reader.u32
  check (refuse (parameterCount * 2 < count.toNat) "mutable-view-effect count")
  viewRootsLoop parameterCount count.toNat none

def badViewFlags (flags : UInt8) : Bool :=
  flags &&& 0xf0 ≠ 0 || (flags &&& 0x02 ≠ 0 && flags &&& 0x01 = 0) || (flags &&& 0x08 ≠ 0 && flags &&& 0x04 = 0)

def readViewEffect (parameterCount : Nat) : Read MutableViewEffect := do
  let flags ← Reader.u8
  check (refuse (badViewFlags flags) "mutable-view-effect flags")
  let writeRoots ← readViewRoots parameterCount
  let rebindRoots ← readViewRoots parameterCount
  check (refuse (flags &&& 0x04 = 0 && !rebindRoots.isEmpty) "mutable-view-effect roots")
  pure
    { mayWriteOriginal := flags &&& 0x01 ≠ 0
      mustWriteOriginalElement := flags &&& 0x02 ≠ 0
      mayRebind := flags &&& 0x04 ≠ 0
      mustRebind := flags &&& 0x08 ≠ 0
      writeRoots
      rebindRoots }

def readMutableViewEffect (parameterCount : Nat) (generic : Bool) : Read MutableViewEffectSummary :=
  Reader.opt "mutable-view-effect option" do
    let count ← Reader.u32
    check (refuse (generic || count.toNat ≠ parameterCount) "mutable-view-effect count")
    times (Reader.opt "mutable-view-effect option" (readViewEffect parameterCount)) count.toNat

/-- The key that the externs of an inline body are sorted by. -/
structure ExternKey where
  link : Option Bytes
  name : Bytes
  deriving Ord

def externKey (external : IInlineExtern) : ExternKey := ⟨external.link.map Writer.strBytes, Writer.strBytes external.name⟩

def externsCanonical (externs : List IInlineExtern) : Except DecodeError Unit :=
  refuse (outOfOrder (externs.map externKey) || !decide (externs.map IInlineExtern.name).Nodup)
    "concrete-inline externs are not canonical"

def readInlineExtern : Read IInlineExtern := do
  let link ← Reader.optStr
  let name ← Reader.str
  let params ← Reader.seq readType
  let ret ← readType
  pure ⟨link, name, params, ret⟩

def readFnBody : Read IFnBody := do
  match ← Reader.u8 with
  | 0 => pure .absent
  | 1 => .genericTemplate <$> Reader.str
  | 2 => do
      let policyVersion ← Reader.u32
      check (refuse (policyVersion ≠ INLINE_BODY_POLICY_VERSION) "unsupported concrete-inline policy version")
      let source ← Reader.str
      let externs ← Reader.seq readInlineExtern
      check (externsCanonical externs)
      pure (.concreteInline policyVersion source externs)
  | tag => throw (.badTag "function body" tag)

def dropStateValid (generic : Bool) (parameter : IParam) (dropState : DropStateEffect) : Bool :=
  if generic then decide (dropState = .deferred) == decide (parameter.mode = .borrowMut)
  else if parameter.mode = .borrowMut then dropState ≠ .deferred
  else dropState = .notApplicable

def validateDropStates (params : List IParam) (dropStates : List DropStateEffect) (generic : Bool) :
    Except DecodeError Unit := do
  refuse (dropStates.length ≠ params.length) "drop-state effect arity disagrees with parameters"
  (params.zip dropStates).forM fun (parameter, dropState) =>
    refuse (!dropStateValid generic parameter dropState)
      "drop-state effect disagrees with parameter mode or template state"

def IFnBody.isTemplate : IFnBody → Bool
  | .genericTemplate _ => true
  | _ => false

def certificationMatchesBody (certification : ProducerCertification) (generic : Bool) (body : IFnBody) : Bool :=
  match certification with
  | .revalidateGenericBody => generic && IFnBody.isTemplate body
  | .validatedBody => !generic && !IFnBody.isTemplate body

def readFn : Read IFnSig := do
  let name ← Reader.str
  let typeParams ← readTypeParams
  let params ← Reader.seq readParam
  let ret ← readType
  let returnBorrow ← readReturnBorrow params.length
  let returnRegion ← readReturnRegion params.length
  let returnCleanup ← readReturnCleanup
  let dropStateEffects ← Reader.seq readDropStateEffect
  check (validateDropStates params dropStateEffects (!typeParams.isEmpty))
  let producerCertification ← readProducerCertification
  let effect ← readEffect
  let parallelTransferParams ← Reader.seq Reader.u32
  check (validateTransferRoots parallelTransferParams params.length)
  let mutableAccess ← readMutableAccess params.length (!typeParams.isEmpty)
  let callbackContract ← readCallbackContract
  check (invalidSummary (validateCallbackRecordOrder callbackContract params.length (!typeParams.isEmpty)))
  let mutableRetention ← readMutableRetention params (!typeParams.isEmpty)
  let mutableViewEffect ← readMutableViewEffect params.length (!typeParams.isEmpty)
  let resourceHookBody ← Reader.bool
  let body ← readFnBody
  check (refuse (!certificationMatchesBody producerCertification (!typeParams.isEmpty) body)
    "producer certification disagrees with function body presence")
  pure
    { name, typeParams, params, ret, returnBorrow, returnRegion, returnCleanup, dropStateEffects, producerCertification,
      effect, parallelTransferParams, mutableAccess, callbackContract, mutableRetention, mutableViewEffect,
      resourceHookBody, body }

def readField : Read (String × IType) := do
  let name ← Reader.str
  let ty ← readType
  pure (name, ty)

def readStruct : Read IStructDef := do
  let name ← Reader.str
  let typeParams ← readTypeParams
  let fields ← Reader.seq readField
  let align ← Reader.optU32
  let cRepr ← Reader.bool
  let genericBody ← Reader.optStr
  pure { name, typeParams, fields, align, cRepr, genericBody }

def readVariant : Read (String × List IType) := do
  let name ← Reader.str
  let payload ← Reader.seq readType
  pure (name, payload)

def readEnum : Read IEnumDef := do
  let name ← Reader.str
  let typeParams ← readTypeParams
  let variants ← Reader.seq readVariant
  let genericBody ← Reader.optStr
  pure { name, typeParams, variants, genericBody }

/-- The array that the 16 bytes are copied into. -/
def readFingerprint : Read { bytes : Bytes // bytes.length = 16 } := do
  let bytes ← take .truncated 16
  if size : bytes.length = 16 then pure ⟨bytes, size⟩ else throw .truncated

def readResource : Read IResourceDef := do
  let name ← Reader.str
  let typeParams ← readTypeParams
  let genericArity ← Reader.u32
  let representationVersion ← Reader.u32
  let dropThunk ← Reader.str
  let fingerprint ← readFingerprint
  pure ⟨name, typeParams, genericArity, representationVersion, dropThunk, fingerprint.1, fingerprint.2⟩

def readConst : Read IConst := do
  let name ← Reader.str
  let ty ← Reader.opt "option" readType
  let valueSrc ← Reader.str
  pure ⟨name, ty, valueSrc⟩

def readOwnedJsonEntry : Read OwnedJsonGraphInterfaceEntry := do
  let typeName ← Reader.str
  let envelope ← Reader.buf
  pure ⟨typeName, envelope⟩

def SEED_LO : UInt64 := 0x9E3779B97F4A7C15
def SEED_HI : UInt64 := 0xC2B2AE3D27D4EB4F

def Hash128.of (bytes : Bytes) : Hash128 := ⟨WyHash.wyhash bytes SEED_LO, WyHash.wyhash bytes SEED_HI⟩

def readSurface : Read Surface := do
  let version ← Reader.u32
  check (if version ≠ FORMAT_VERSION then .error (.unknownVersion version) else .ok ())
  let unit ← Reader.str
  let fns ← Reader.seq readFn
  let structs ← Reader.seq readStruct
  let ownedJsonGraphs ← Reader.seq readOwnedJsonEntry
  let enums ← Reader.seq readEnum
  let resources ← Reader.seq readResource
  let consts ← Reader.seq readConst
  pure { unit, fns, structs, ownedJsonGraphs, enums, resources, consts }

def readHash : Read Hash128 := do
  let lo ← Reader.u64
  let hi ← Reader.u64
  pure ⟨lo, hi⟩

structure Trailer where
  capabilities : List String
  interfaceHash : Hash128
  implHash : Hash128

def readTrailer : Read Trailer := do
  let capabilities ← Reader.seq Reader.str
  let interfaceHash ← readHash
  let implHash ← readHash
  pure ⟨capabilities, interfaceHash, implHash⟩

/-- The checks that need the whole summary and its type graph. They are functions of
what was read, and nothing below depends on what they decide: whether the
parallel-transfer roots are borrow-capable, `owned_json::validate_entries`, and whether
`validate_for_import` reports a drop-state mismatch. -/
structure SummaryChecks (Target : Type) where
  transferRootsAreBorrowCapable : InterfaceSummary → Bool
  validateEntries : List IStructDef → List OwnedJsonGraphInterfaceEntry → Option Target → Except String Unit
  dropStateEffectMismatch : InterfaceSummary → Bool

variable {Target : Type}

/-- The checks on a summary whose surface was read from `surface`, in order. -/
def validateSummary (checks : SummaryChecks Target) (target : Option Target) (surface : Bytes)
    (summary : InterfaceSummary) : Except DecodeError Unit := do
  refuse (!checks.transferRootsAreBorrowCapable summary) "parallel-transfer root is not borrow-capable"
  (checks.validateEntries summary.structs summary.ownedJsonGraphs target).mapError .invalidOwnedJson
  if Hash128.of surface ≠ summary.interfaceHash then throw .interfaceHashMismatch
  invalidSummary (validateMutableViewEffects summary)
  refuse (checks.dropStateEffectMismatch summary) "drop-state effect disagrees with resolved parameter ownership"

def deserializeImpl (checks : SummaryChecks Target) (bytes : Bytes) (target : Option Target) :
    Except DecodeError InterfaceSummary := do
  let (surface, rest) ← readSurface bytes
  let surfaceLen := bytes.length - rest.length
  let (trailer, rest) ← readTrailer rest
  if rest ≠ [] then throw .trailingBytes
  let summary : InterfaceSummary :=
    { surface with
      capabilities := trailer.capabilities, interfaceHash := trailer.interfaceHash, implHash := trailer.implHash }
  validateSummary checks target (bytes.take surfaceLen) summary
  return summary

def deserialize (checks : SummaryChecks Target) (bytes : Bytes) : Except DecodeError InterfaceSummary :=
  deserializeImpl checks bytes none

def deserializeForTarget (checks : SummaryChecks Target) (bytes : Bytes) (target : Target) :
    Except DecodeError InterfaceSummary :=
  deserializeImpl checks bytes (some target)

end Align.InterfaceCodec
