import ShaderCompose.Lang.Stage
import ShaderCompose.Preprocess.Error

/-!
The messages of the compiler, as data and as text.
-/

namespace ShaderCompose

/-- What the compiler can say. -/
inductive Message where
  -- Loading
  | shaderNotFound (name : String)
  | preprocessFailed (name : String) (cause : PreprocessError)
  | parseError (text : String)
  | notOneClass (name : String) (count : Nat)
  | otherClassName (file cls : String)
  | genericCount (cls : String) (expected actual : Nat)
  | repeatedGeneric (cls name : String)
  | cyclicInheritance (cls : String)
  | emptyMixin
  | invalidRoot
  -- Hierarchies
  | overrideWithoutBase (cls method : String)
  | missingOverride (cls method : String)
  | duplicateMember (cls name : String)
  -- Method bodies
  | unresolvedIdentifier (name : String)
  | argumentCount (name expected : String) (actual : Nat)
  | baseMethodNotFound (name : String)
  | streamMemberNotFound (name : String)
  | unknownCompositionMember (composition name : String)
  | invalidForEach (name : String)
  | valueInVoidMethod (method : String)
  | missingReturnValue (method : String)
  -- Compositions
  | unknownSlot (cls slot : String)
  | duplicateComposition (slot : String)
  | compositionType (slot expected actual : String)
  | missingComposition (name : String)
  | compositionArray (name : String)
  | methodNotImplemented (cls method : String)
  | duplicateStageMember (name : String)
  -- Linking
  | cannotLink (name : String)
  | linkArguments (name : String)
  | recursiveStruct (name : String)
  | arraySizeNotConstant (name : String)
  | parameterTooLarge (name : String)
  | missingEntryPoint (stage : Stage)
  | recursiveCall (method : String)
  | streamsNotGenerated (stage : Stage)
  | samplerFilter (name : String)
  | samplerField (name : String)
  | samplerBorderColor (sampler : String)
  deriving DecidableEq, Repr, Inhabited

namespace Message

def text : Message → String
  | shaderNotFound name => s!"shader `{name}` could not be found"
  | preprocessFailed name cause => s!"failed to preprocess `{name}`: {cause.message}"
  | parseError text => s!"parse error: {text}"
  | notOneClass name count => s!"`{name}` must contain exactly one shader class, found {count}"
  | otherClassName file cls => s!"file `{file}` declares class `{cls}`"
  | genericCount cls expected actual =>
    s!"`{cls}` expects {expected} generic arguments but {actual} were given"
  | repeatedGeneric cls name => s!"`{cls}` declares the generic parameter `{name}` more than once"
  | cyclicInheritance cls => s!"`{cls}` inherits from itself"
  | emptyMixin => "a mixin source must name at least one class"
  | invalidRoot => "the root of a request must be a single class or mixin"
  | overrideWithoutBase cls method =>
    s!"`{cls}.{method}` is marked override but no base class declares it"
  | missingOverride cls method => s!"`{cls}.{method}` hides a base method and must be marked override"
  | duplicateMember cls name => s!"`{name}` is declared more than once in the hierarchy of `{cls}`"
  | unresolvedIdentifier name => s!"unresolved identifier `{name}`"
  | argumentCount name expected actual =>
    s!"`{name}` takes {expected} arguments but {actual} were given"
  | baseMethodNotFound name => s!"no base class implements `{name}`"
  | streamMemberNotFound name => s!"`streams.{name}` is not a stream variable"
  | unknownCompositionMember composition name => s!"composition `{composition}` has no member `{name}`"
  | invalidForEach name => s!"foreach requires an array composition, `{name}` is not one"
  | valueInVoidMethod method => s!"`{method}` returns void but a value is returned"
  | missingReturnValue method => s!"`{method}` must return a value"
  | unknownSlot cls slot => s!"`{cls}` has no composition variable `{slot}`"
  | duplicateComposition slot => s!"composition `{slot}` is filled more than once"
  | compositionType slot expected actual =>
    s!"composition `{slot}` expects `{expected}` but `{actual}` was composed"
  | missingComposition name => s!"composition `{name}` is used but nothing was composed into it"
  | compositionArray name => s!"composition `{name}` is used with the wrong number of elements"
  | methodNotImplemented cls method => s!"`{cls}.{method}` is abstract and has no implementation"
  | duplicateStageMember name => s!"stage member `{name}` is declared by more than one class"
  | cannotLink name => s!"`{name}` cannot be linked to a parameter"
  | linkArguments name => s!"the Link attribute of `{name}` must have exactly one string argument"
  | recursiveStruct name => s!"struct `{name}` contains itself"
  | arraySizeNotConstant name => s!"the array size of `{name}` must be a constant integer"
  | parameterTooLarge name => s!"`{name}` does not fit in its constant buffer or register space"
  | missingEntryPoint stage => s!"no entry point was found for the {stage.name} stage"
  | recursiveCall method => s!"`{method}` calls itself"
  | streamsNotGenerated stage =>
    s!"stream inputs and outputs are not generated for the {stage.name} stage"
  | samplerFilter name => s!"sampler filter `{name}` is not supported"
  | samplerField name => s!"sampler state field `{name}` is not supported"
  | samplerBorderColor sampler => s!"sampler border color of `{sampler}` must be a float4 of literals"

end Message

end ShaderCompose
