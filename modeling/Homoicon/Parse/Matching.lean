import Homoicon.Parse.Subject
import Homoicon.Path.Walk

/-!
# Matching rules

A block of rules matches if one of its alternatives does, rule after rule.  Rules nest, so the
functions here are written over a `Parser`, which matches one rule, and `matchItem` is one function
on how deep rules may still nest.  Each block of rules looks first whether the native stack has room
for it.
-/

namespace Homoicon.Parse

/-- Matches one rule on behalf of those that contain others. -/
structure Parser where
  engine : Engine
  /-- How many rules are being matched, each inside the one before. -/
  level : Nat
  /-- Matches the rule under a cursor, and gives the cursor behind it. -/
  item : Subject → Rules → Nat → Interp (Match × Rules)

namespace Parser

/-- Evaluates a group in rules; `none` for a throw. -/
def doGroup (p : Parser) (group : Cell) : Interp (Option Cell) :=
  p.engine.doBlock { group with kind := .group }

/-- The cursor behind the current rule. -/
def skipItem (p : Parser) (rules : Rules) : Interp Rules := rules.skipItem p.engine.rounds

/-- The cursor behind the next bar; none if there is no other alternative. -/
def nextAlternative? : Nat → Rules → Interp (Option Rules)
  | 0, _ => throw .exhausted
  | fuel + 1, rules => do
    match ← rules.current? with
    | none => pure none
    | some rule => if rule.isBar then pure (some rules.next) else nextAlternative? fuel rules.next

/-- Matches rules up to a bar or the end; when one fails, what was kept is given up and the next
alternative begins where the first did. -/
def alternatives (p : Parser) (s : Subject) (start : Nat) (kept : Option Nat) :
    Nat → Rules → Nat → Interp Match
  | 0, _, _ => throw .exhausted
  | fuel + 1, rules, pos => do
    match ← rules.current? with
    | none => pure (.matched pos)
    | some rule =>
      if rule.isBar then return .matched pos
      let (result, rules) ← p.item s rules pos
      match result with
      | .matched behind | .accepted behind => alternatives p s start kept fuel rules behind
      | .thrown => pure .thrown
      | .notFound =>
        s.giveUp kept
        match ← nextAlternative? p.engine.rounds rules with
        | none => pure .notFound
        | some rules => alternatives p s start kept fuel rules start

/-- Ends a throw out of a block of rules that began at a position, if it is ACCEPT or REJECT. -/
def leaveBlock (pos : Nat) : Interp Match := do
  let specials := (← get).specials
  let label := (← Interp.thrownLabel?).bind Cell.asAction?
  if label == some specials.parseAccept then
    let thrown ← Interp.takeThrown
    pure (.accepted (thrown.value.asInteger?.getD pos).toNat)
  else if label == some specials.parseReject then
    let _ ← Interp.takeThrown
    pure .notFound
  else pure .thrown

/-- Matches a block of rules; ACCEPT and REJECT in it end here. -/
def block (p : Parser) (s : Subject) (rules : Rules) (pos : Nat) : Interp Match := do
  Query.checkStack p.level
  let kept ← match s.collection with
    | some collection => do pure (some (← Query.size collection))
    | none => pure none
  match ← alternatives p s pos kept p.engine.rounds rules pos with
  | .thrown => leaveBlock pos
  | result => pure result

/-- Matches an element by its kind. -/
def element (s : Subject) (pos : Nat) (fits : Cell → Bool) : Interp Match := do
  match ← s.element? pos with
  | some c => pure (if fits c then .matched (pos + 1) else .notFound)
  | none => pure .notFound

/-- Matches a value that a rule is or refers to. -/
def value (p : Parser) (s : Subject) (rule : Cell) (pos : Nat) : Interp Match := do
  if rule.isQuoted then return ← s.matchLiteral (← Query.unquotify rule 1) pos
  match rule.kind with
  | .blank => pure (.matched pos)
  | .logic => pure (if rule.isTruthy then .matched pos else .notFound)
  | .block => do p.block s (← Rules.ofBlock rule) pos
  | .datatype | .typeset =>
    element s pos fun c =>
      match rule.payload with
      | .datatype k => c.typeKind = k
      | .typeset t => Query.typeMatches t c
      | _ => false
  | .integer | .action | .null | .void | .bar => fail (.parseRule (← Query.mold rule))
  | kind =>
    if kind.isAnyWord || kind.isAnyPath then fail (.parseRule (← Query.mold rule))
    else s.matchLiteral rule pos

/-- How a repetition fared that ended at a position after a number of matches. -/
def counts (least count pos : Nat) : Match := if count < least then .notFound else .matched pos

/-- Matches one rule again and again, at most `limit` times if there is one.  Without a limit a
match of nothing ends it. -/
def repetitions (p : Parser) (s : Subject) (rules : Rules) (least : Nat) (limit : Option Nat) :
    Nat → Nat → Nat → Interp Match
  | 0, _, _ => throw .exhausted
  | fuel + 1, count, pos => do
    if limit.any (· ≤ count) then return counts least count pos
    match (← p.item s rules pos).1 with
    | .matched behind =>
      if behind == pos && limit.isNone then pure (counts least (count + 1) pos)
      else repetitions p s rules least limit fuel (count + 1) behind
    | .accepted behind => pure (counts least (count + 1) behind)
    | .notFound => pure (counts least count pos)
    | .thrown => pure .thrown

/-- Matches the rule under a cursor a number of times. -/
def repeated (p : Parser) (s : Subject) (rules : Rules) (pos least : Nat) (limit : Option Nat) :
    Interp (Match × Rules) := do
  let behind ← p.skipItem rules
  pure (← repetitions p s rules least limit p.engine.rounds 0 pos, behind)

/-- Stores what a rule matched in a variable: a copy of it, or its first element. -/
def capture (p : Parser) (s : Subject) (rules : Rules) (pos : Nat) (name : String)
    (whole : Bool) : Interp (Match × Rules) := do
  let (target, rules) ← rules.takeTarget name
  let (result, rules) ← p.item s rules pos
  match result.behind? with
  | none => pure ()
  | some behind =>
    let captured ←
      if whole then do
        Interp.copyValue (← Query.ask (s.position pos)) (some (behind - pos)) false
      else if pos < behind then do pure ((← s.element? pos).getD Cell.null)
      else pure Cell.null
    Interp.setVar target none captured
  pure (result, rules)

/-- COLLECT: gathers what KEEP adds in a rule into a variable. -/
def collect (p : Parser) (s : Subject) (rules : Rules) (pos : Nat) (name : String) :
    Interp (Match × Rules) := do
  let (target, rules) ← rules.takeTarget name
  let collection ← Interp.allocArray []
  let block := Cell.series .block collection 0
  let (result, rules) ← Interp.guarding do
    Interp.guard block
    p.item { s with collection := some collection } rules pos
  if result.behind?.isSome then Interp.setVar target none block
  pure (result, rules)

/-- Adds what a rule matches to a collection, as one block if `only`. -/
def keepMatched (p : Parser) (s : Subject) (collection : SeriesId) (only : Bool) (rules : Rules)
    (pos : Nat) : Interp (Match × Rules) := do
  let (result, rules) ← p.item s rules pos
  match result.behind? with
  | none => pure ()
  | some behind =>
    if s.cell.kind.isAnyArray then
      let items ← (List.range' pos (behind - pos)).mapM s.element?
      Subject.keepItems collection (items.filterMap id) only
    else if pos < behind then
      let span ← Interp.copyValue (← Query.ask (s.position pos)) (some (behind - pos)) false
      Interp.modifyCells collection (·.push span)
  pure (result, rules)

/-- KEEP: adds what a rule matched, or the values of a get-block, to the collection. -/
def keep (p : Parser) (s : Subject) (rules : Rules) (pos : Nat) (name : String) :
    Interp (Match × Rules) := do
  match s.collection with
  | none => fail (.parseRule name)
  | some collection =>
    let (only, rules) ← rules.takeOnly
    let code? := (← rules.current?).filter (·.is .getBlock)
    match code? with
    | some code =>
      let reduced ← p.engine.reduce (← Query.arrayOf code) code.index
        (Query.deriveSpecifier code none)
      match reduced with
      | none => pure (.thrown, rules.next)
      | some reduced =>
        Subject.keepItems collection (← Query.cellsFrom (← Query.arrayOf reduced) 0) only
        pure (.matched pos, rules.next)
    | none => p.keepMatched s collection only rules pos

/-- The value that INSERT or CHANGE puts in: that of a group or variable, or the item itself with
one level of quoting taken off.  `none` for a throw. -/
def replacement (p : Parser) (rules : Rules) (after : String) :
    Interp (Option Cell × Rules) := do
  let (item, rules) ← rules.take after
  if item.is .group then pure (← p.doGroup item, rules)
  else if item.is .word then pure (some (← Query.getVar item none), rules)
  else if item.isQuoted then pure (some (← Query.unquotify item 1), rules)
  else pure (some item, rules)

/-- REMOVE: takes what a rule matched out of the subject. -/
def remove (p : Parser) (s : Subject) (rules : Rules) (pos : Nat) : Interp (Match × Rules) := do
  let (result, rules) ← p.item s rules pos
  match result.behind? with
  | some behind =>
    let _ ← Interp.removeSpan s.cell pos (behind - pos)
    pure (.matched pos, rules)
  | none => pure (result, rules)

/-- INSERT: puts a value into the subject. -/
def insert (p : Parser) (s : Subject) (rules : Rules) (pos : Nat) (name : String) :
    Interp (Match × Rules) := do
  let (only, rules) ← rules.takeOnly
  match ← p.replacement rules name with
  | (none, rules) => pure (.thrown, rules)
  | (some value, rules) =>
    pure (.matched (← Interp.insertAt s.cell pos value only none 1), rules)

/-- CHANGE: puts a value in the place of what a rule matched. -/
def change (p : Parser) (s : Subject) (rules : Rules) (pos : Nat) (name : String) :
    Interp (Match × Rules) := do
  let (only, rules) ← rules.takeOnly
  let (result, rules) ← p.item s rules pos
  match ← p.replacement rules name with
  | (none, rules) => pure (.thrown, rules)
  | (some value, rules) =>
    match result.behind? with
    | some behind =>
      let _ ← Interp.removeSpan s.cell pos (behind - pos)
      pure (.matched (← Interp.insertAt s.cell pos value only none 1), rules)
    | none => pure (result, rules)

/-- IF: goes on if a group comes to a value that counts as true. -/
def condition (p : Parser) (rules : Rules) (pos : Nat) (name : String) :
    Interp (Match × Rules) := do
  let (group, rules) ← rules.take name
  if !group.is .group then fail (.parseRule (← Query.mold group))
  match ← p.doGroup group with
  | none => pure (.thrown, rules)
  | some result => pure (if result.isTruthy then .matched pos else .notFound, rules)

/-- SEEK: goes to another position. -/
def seek (s : Subject) (rules : Rules) (name : String) : Interp (Match × Rules) := do
  let (target, rules) ← rules.take name
  let place ←
    if target.kind.isAnyWord && target.quote == 0 then Query.ask (Query.getVar target none)
    else pure target
  pure (.matched (← Query.ask (s.seek place)), rules)

/-- INTO: matches a block of rules against a series that is an element of the subject. -/
def into (p : Parser) (s : Subject) (rules : Rules) (pos : Nat) (name : String) :
    Interp (Match × Rules) := do
  let (item, rules) ← rules.take name
  let block ← if item.is .word then Query.ask (Query.getVar item none) else pure item
  if !block.is .block then fail (.parseRule (← Query.mold block))
  let inner? := (← s.element? pos).filter fun c => c.quote == 0 && c.kind.isAnySeries
  match inner? with
  | none => pure (.notFound, rules)
  | some inner =>
    let sub ← Subject.ofCell inner s.strict s.collection
    let size ← Query.ask sub.size
    let result ← p.block sub (← Rules.ofBlock block) inner.index
    match result with
    | .thrown => pure (.thrown, rules)
    | _ => pure (if result.behind? == some size then .matched (pos + 1) else .notFound, rules)

/-- DO: evaluates an expression of the subject and matches a rule against its value. -/
def expression (p : Parser) (s : Subject) (rules : Rules) (pos : Nat) :
    Interp (Match × Rules) := do
  if !s.cell.kind.isAnyArray then fail (.parseRule "do")
  if (← Query.ask s.size) ≤ pos then return (.notFound, ← p.skipItem rules)
  match ← p.engine.evalStepAt s.series pos s.specifier with
  | none => pure (.thrown, rules)
  | some (result, next) =>
    if result.isEnd then return (.notFound, ← p.skipItem rules)
    let holder ← Interp.arrayCell .block [result]
    let single : Subject :=
      { cell := holder, series := ← Query.arrayOf holder, specifier := none, strict := s.strict,
        collection := s.collection }
    let (result, rules) ← Interp.guarding do
      Interp.guard holder
      p.item single rules 0
    match result with
    | .thrown => pure (.thrown, rules)
    | _ => pure (if result.behind? == some 1 then .matched next else .notFound, rules)

/-- Tries a rule at each of some positions.  TO stops before what it finds, THRU behind it. -/
def search (p : Parser) (s : Subject) (rules : Rules) (thru : Bool) :
    List Nat → Interp Match
  | [] => pure .notFound
  | pos :: rest => do
    match (← p.item s rules pos).1 with
    | .matched behind | .accepted behind => pure (.matched (if thru then behind else pos))
    | .thrown => pure .thrown
    | .notFound => search p s rules thru rest

/-- TO and THRU: searches for a rule. -/
def seekRule (p : Parser) (s : Subject) (rules : Rules) (pos : Nat) (thru : Bool) :
    Interp (Match × Rules) := do
  let size ← Query.ask s.size
  if ← rules.isAt .end_ then return (.matched size, rules.next)
  let behind ← p.skipItem rules
  pure (← p.search s rules thru (List.range' pos (size + 1 - pos)), behind)

/-- Leaves a block of rules early. -/
def leave (label : Action) (value : Cell) : Interp Match := do
  Interp.beginThrow (Cell.action label .unbound) value
  pure .thrown

/-- Matches a keyword with its arguments. -/
def keyword (p : Parser) (s : Subject) (k : Keyword) (rule : Cell) (rules : Rules) (pos : Nat) :
    Interp (Match × Rules) := do
  let name ← Query.mold rule
  let size ← Query.ask s.size
  match k with
  | .while_ | .any => p.repeated s rules pos 0 none
  | .some_ => p.repeated s rules pos 1 none
  | .opt => p.repeated s rules pos 0 (some 1)
  | .not_ =>
    let (result, rules) ← p.item s rules pos
    match result with
    | .matched _ | .accepted _ => pure (.notFound, rules)
    | .notFound => pure (.matched pos, rules)
    | .thrown => pure (.thrown, rules)
  | .ahead =>
    let (result, rules) ← p.item s rules pos
    pure (if result.behind?.isSome then .matched pos else result, rules)
  | .copy => p.capture s rules pos name true
  | .set => p.capture s rules pos name false
  | .collect => p.collect s rules pos name
  | .keep => p.keep s rules pos name
  | .remove => p.remove s rules pos
  | .insert => p.insert s rules pos name
  | .change => p.change s rules pos name
  | .if_ => p.condition rules pos name
  | .accept | .break_ => do
    pure (← leave (← get).specials.parseAccept (Cell.integer pos), rules)
  | .reject => do pure (← leave (← get).specials.parseReject Cell.null, rules)
  | .fail => pure (.notFound, rules)
  | .mark =>
    let (target, rules) ← rules.takeTarget name
    Interp.setVar target none (← Query.ask (s.position pos))
    pure (.matched pos, rules)
  | .seek => seek s rules name
  | .into => p.into s rules pos name
  | .do_ => p.expression s rules pos
  | .lit =>
    let (value, rules) ← rules.take name
    pure (← s.matchLiteral value pos, rules)
  | .to_ => p.seekRule s rules pos false
  | .thru => p.seekRule s rules pos true
  | .skip => pure (if pos < size then .matched (pos + 1) else .notFound, rules)
  | .end_ => pure (if size ≤ pos then .matched pos else .notFound, rules)
  | .only => fail (.parseRule name)

/-- Matches a rule that begins with one or two counts. -/
def counted (p : Parser) (s : Subject) (rule : Cell) (rules : Rules) (pos : Nat) (least : Int) :
    Interp (Match × Rules) := do
  let second? := (← rules.current?).filter (·.is .integer)
  let refused : Interp (Match × Rules) := do fail (.parseRule (← Query.mold rule))
  match second? with
  | none => if least < 0 then refused else p.repeated s rules pos least.toNat (some least.toNat)
  | some second =>
    let rules := rules.next
    if (← rules.current?).any (·.is .integer) then return ← refused
    let most := second.asInteger?.getD least
    if least < 0 || most < least then refused
    else p.repeated s rules pos least.toNat (some most.toNat)

/-- Matches the rule under a cursor. -/
def rule (p : Parser) (s : Subject) (rules : Rules) (pos : Nat) : Interp (Match × Rules) := do
  let (item, rules) ← rules.take "rule"
  let withRules (result : Match) : Match × Rules := (result, rules)
  if item.quote != 0 then return withRules (← p.value s item pos)
  match item.kind with
  | .integer => p.counted s item rules pos (item.asInteger?.getD 0)
  | .setWord =>
    Interp.setVar item none (← Query.ask (s.position pos))
    pure (.matched pos, rules)
  | .getWord =>
    let target ← Query.getVar item none
    pure (.matched (← Query.ask (s.seek target)), rules)
  | .group =>
    match ← p.doGroup item with
    | none => pure (.thrown, rules)
    | some _ => pure (.matched pos, rules)
  | .getGroup =>
    match ← p.doGroup item with
    | none => pure (.thrown, rules)
    | some result =>
      if result.isNull then pure (.matched pos, rules)
      else withRules <$> p.value s result pos
  | .word =>
    match ← Query.ask (keyword? item) with
    | some k => p.keyword s k item rules pos
    | none => do withRules <$> p.value s (← Query.getVar item none) pos
  | .path =>
    match ← Path.get p.engine item none false with
    | none => pure (.thrown, rules)
    | some value => withRules <$> p.value s value pos
  | _ => withRules <$> p.value s item pos

end Parser

/-- Matches the rule under a cursor inside `level` others, where rules may nest as deep as the first
number tells. -/
def matchItem (e : Engine) : Nat → (level : Nat) → Subject → Rules → Nat → Interp (Match × Rules)
  | 0, _, _, _, _ => throw .exhausted
  | depth + 1, level, s, rules, pos =>
    Parser.rule { engine := e, level := level + 1, item := matchItem e depth (level + 1) } s rules pos

/-- Matches a block of rules against a series from its position on. -/
def run (e : Engine) (input rules : Cell) (strict : Bool) : Interp Match := do
  let parser : Parser := { engine := e, level := 0, item := matchItem e e.rounds 0 }
  let subject ← Subject.ofCell input strict none
  parser.block subject (← Rules.ofBlock rules) input.index

end Homoicon.Parse
