import Homoicon.Token

/-!
# Errors

Why an evaluation fails.  Each cause has a category, an id by which programs tell errors apart and
a wording; a raised error also says which action failed and near which code.
-/

namespace Homoicon

/-- The broad class of an error. -/
inductive Category where
  | script
  | syntactic
  | access
  | resource
  | user
  | internal
deriving Repr, DecidableEq, Inhabited

namespace Category

/-- The name of a category. -/
def name : Category → String
  | script => "script"
  | syntactic => "syntax"
  | access => "access"
  | resource => "resource"
  | user => "user"
  | internal => "internal"

/-- The category with a name; any other name is that of the user's own errors. -/
def ofName : String → Category
  | "script" => script
  | "syntax" => syntactic
  | "access" => access
  | "resource" => resource
  | "internal" => internal
  | _ => user

/-- The name as a heading. -/
def title (c : Category) : String := c.name.capitalize

end Category

/-- A raised error. -/
structure Error where
  category : Category
  id : String
  message : String
  /-- The name of the action that failed. -/
  site : Option String := none
  /-- The code around the failure. -/
  near : Option String := none
deriving Repr, DecidableEq, Inhabited

namespace Error

/-- An error of the user's own. -/
def user (message : String) : Error := { category := .user, id := "user", message }

/-- Names the action that failed, unless one is named already. -/
def withSite (e : Error) (label : String) : Error :=
  { e with site := e.site <|> some label }

/-- Gives the code around the failure, unless it is given already. -/
def withNear (e : Error) (near : String) : Error :=
  { e with near := e.near <|> some near }

/-- The report of an error. -/
def display (e : Error) : String :=
  "** " ++ e.category.title ++ " Error: " ++ e.message ++
    (match e.site with
      | some site => "\n** Where: " ++ site
      | none => "") ++
    (match e.near with
      | some near => "\n** Near: " ++ near
      | none => "")

end Error

/-- The causes of failure that the language itself knows. -/
inductive Cause where
  | scan (error : ScanError)
  | unknownConstruct (name : String)
  | noValue (name : String)
  | notBound (name : String)
  | noArg (label param : String)
  | expectArg (label param kind : String)
  | needNonVoid (name : String)
  | needNonNull (name : String)
  | needNonEnd (name : String)
  | literalLeft (name : String)
  | ambiguousInfix
  | evaluativeQuote (label : String)
  | voidEvaluation
  | evaluateNull
  | badPathPick (picker : String)
  | badPathPoke (picker : String)
  | pathGroup
  | badRefine (name : String)
  | badMake (kind spec : String)
  | cannotReflect (kind property : String)
  | outOfRange (value : String)
  | sizeLimit (value : String)
  | badFuncDef (item : String)
  | noCatch (label : String)
  | invalidArg (value : String)
  | invalidType (kind : String)
  | zeroDivide
  | overflow
  | stackOverflow
  | halted
  | parseRule (rule : String)
  | parseEnd (rule : String)
  | parseCommand (rule : String)
  | parseVariable (rule : String)
  | parseSeries (rule : String)
  | protectedWord (name : String)
  | protectedSeries
  | seriesDataFreed
  | invalidCompare (left right : String)
  | cannotUse (operation kind : String)
  | badReturnType (kind label : String)
  | blockConditional
  | takeVarargs
  | catchNameAny
  | redoOther
  | returnArchetype
  | internalParse (name : String)
  | badChecker
  | badErrorValue
  | noPhase (what : String)
  | badChain
  | badSpecialization
  | noNative (name : String)
  | badJson (message : String)
deriving Repr, DecidableEq, Inhabited

namespace Cause

/-- The class of a cause. -/
def category : Cause → Category
  | scan _ | unknownConstruct _ | parseRule _ | parseEnd _ | parseCommand _ | parseVariable _
  | parseSeries _ | badJson _ => .syntactic
  | protectedWord _ | protectedSeries | seriesDataFreed => .access
  | stackOverflow | halted | badChecker | badErrorValue | noPhase _ | badChain
  | badSpecialization | noNative _ => .internal
  | _ => .script

/-- The id of a cause. -/
def id : Cause → String
  | scan e => e.cause.id
  | unknownConstruct _ => "scan-invalid"
  | noValue _ => "no-value"
  | notBound _ => "not-bound"
  | noArg .. => "no-arg"
  | expectArg .. => "expect-arg"
  | needNonVoid _ => "need-non-void"
  | needNonNull _ => "need-non-null"
  | needNonEnd _ => "need-non-end"
  | literalLeft _ => "literal-left"
  | ambiguousInfix => "ambiguous-infix"
  | evaluativeQuote _ => "evaluative-quote"
  | voidEvaluation => "void-evaluation"
  | evaluateNull => "evaluate-null"
  | badPathPick _ => "bad-path-pick"
  | badPathPoke _ => "bad-path-poke"
  | pathGroup => "path-group"
  | badRefine _ => "bad-refine"
  | badMake .. => "bad-make"
  | cannotReflect .. => "cannot-reflect"
  | outOfRange _ => "out-of-range"
  | sizeLimit _ => "size-limit"
  | badFuncDef _ => "bad-func-def"
  | noCatch _ => "no-catch"
  | invalidArg _ => "invalid-arg"
  | invalidType _ => "invalid-type"
  | zeroDivide => "zero-divide"
  | overflow => "overflow"
  | stackOverflow => "stack-overflow"
  | halted => "halted"
  | parseRule _ => "parse-rule"
  | parseEnd _ => "parse-end"
  | parseCommand _ => "parse-command"
  | parseVariable _ => "parse-variable"
  | parseSeries _ => "parse-series"
  | protectedWord _ => "protected-word"
  | protectedSeries => "protected"
  | seriesDataFreed => "series-data-freed"
  | invalidCompare .. => "invalid-compare"
  | cannotUse .. => "cannot-use"
  | badReturnType .. => "bad-return-type"
  | blockConditional => "block-conditional"
  | takeVarargs | catchNameAny => "bad-refines"
  | redoOther => "redo-other"
  | returnArchetype => "return-archetype"
  | internalParse _ => "internal-parse"
  | badChecker => "bad-checker"
  | badErrorValue => "bad-error"
  | noPhase _ => "no-phase"
  | badChain => "bad-chain"
  | badSpecialization => "bad-specialization"
  | noNative _ => "no-native"
  | badJson _ => "bad-json"

/-- The wording of a cause. -/
def message : Cause → String
  | scan e => e.cause.message ++ " (line " ++ toString e.line ++ ")"
  | unknownConstruct name => "unknown construction syntax #[" ++ name ++ "]"
  | noValue name => name ++ " has no value"
  | notBound name => name ++ " word is not bound to a context"
  | noArg label param => label ++ " is missing its " ++ param ++ " argument"
  | expectArg label param kind =>
    label ++ " does not allow " ++ kind ++ " for its " ++ param ++ " argument"
  | needNonVoid name => name ++ " is VOID!"
  | needNonNull name => name ++ " needs a value, can't be null"
  | needNonEnd name => "end was reached while trying to set " ++ name
  | literalLeft name =>
    name ++ " quotes its left argument but there was already evaluation on its left"
  | ambiguousInfix => "Ambiguous infix expression--use GROUP! to clarify"
  | evaluativeQuote label => label ++ " quotes its left argument, but that argument was evaluated"
  | voidEvaluation => "VOID! cells cannot be evaluated"
  | evaluateNull => "null cannot be evaluated"
  | badPathPick picker => "cannot pick " ++ picker
  | badPathPoke picker => "cannot poke " ++ picker
  | pathGroup => "GROUP! in PATH! used with GET or SET (use REDUCE/EVAL)"
  | badRefine name => "incompatible or invalid refinement: /" ++ name
  | badMake kind spec => "cannot MAKE/TO " ++ kind ++ " from: " ++ spec
  | cannotReflect kind property => "cannot use " ++ property ++ " on " ++ kind ++ " value"
  | outOfRange value => "value out of range: " ++ value
  | sizeLimit value => "maximum limit reached: " ++ value
  | badFuncDef item => "invalid function definition: " ++ item
  | noCatch label => "missing CATCH for THROW of " ++ label
  | invalidArg value => "invalid argument: " ++ value
  | invalidType kind => kind ++ " type is not allowed here"
  | zeroDivide => "attempt to divide by zero"
  | overflow => "math or number overflow"
  | stackOverflow => "stack overflow"
  | halted => "halted by user or script"
  | parseRule rule => "PARSE - invalid rule or usage of rule: " ++ rule
  | parseEnd rule => "PARSE - unexpected end of rule after: " ++ rule
  | parseCommand rule => "PARSE - command cannot be used as variable: " ++ rule
  | parseVariable rule => "PARSE - expected a variable, not: " ++ rule
  | parseSeries rule => "PARSE - input must be a series: " ++ rule
  | protectedWord name => "variable " ++ name ++ " locked by PROTECT (see UNPROTECT)"
  | protectedSeries => "protected value or series - cannot modify"
  | seriesDataFreed => "series data has been freed (frame no longer running)"
  | invalidCompare left right => "cannot compare " ++ left ++ " with " ++ right
  | cannotUse operation kind => "cannot use " ++ operation ++ " on " ++ kind ++ " value"
  | badReturnType kind label => "return type " ++ kind ++ " is not allowed by " ++ label
  | blockConditional => "literal block used as a conditional"
  | takeVarargs => "TAKE of a VARARGS! takes one item from its front"
  | catchNameAny => "incompatible refinements: /name and /any"
  | redoOther => "REDO/OTHER needs an action sharing the frame's parameters"
  | returnArchetype => "RETURN used outside of a function body"
  | internalParse name => name ++ " is for internal PARSE use only"
  | badChecker => "type checker without a datatype"
  | badErrorValue => "error value without a context"
  | noPhase what => what ++ " run without a phase"
  | badChain => "chain has an empty pipeline"
  | badSpecialization => "specialization details hold no action"
  | noNative name => name ++ " is not a library action"
  | badJson message => message

/-- The error that a cause raises. -/
def error (c : Cause) : Error := { category := c.category, id := c.id, message := c.message }

end Cause

end Homoicon
