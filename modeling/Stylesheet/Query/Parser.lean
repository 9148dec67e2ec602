import Stylesheet.Query.Lexer
import Stylesheet.Query.Syntax

/-! Reading tokens as a query. A reader takes tokens off the front and gives back the others; as
these are fewer, readers may call each other. -/

namespace Stylesheet.Query

structure Shorter (ts : List Token) where
  rest : List Token
  length_lt : rest.length < ts.length

namespace Shorter

def tail (t : Token) (ts : List Token) : Shorter (t :: ts) :=
  ⟨ts, Nat.lt_succ_self _⟩

def cons {ts : List Token} (t : Token) (s : Shorter ts) : Shorter (t :: ts) :=
  ⟨s.rest, Nat.lt_succ_of_lt s.length_lt⟩

def trans {ts us : List Token} (s : Shorter us) (h : us.length < ts.length) : Shorter ts :=
  ⟨s.rest, Nat.lt_trans s.length_lt h⟩

end Shorter

abbrev Reading (α : Type) (ts : List Token) := Except Fault (α × Shorter ts)

def opensStep : List Token → Bool
  | .symbol .dot :: _ | .symbol .doubleDot :: _ | .symbol .star :: _ | .name _ :: _ => true
  | _ => false

/-- Only elements and processing instructions take an argument. -/
def NodeTest.ofKind? (kind : String) (argument : Option String) : Option NodeTest :=
  match kind, argument with
  | "node", none => some .any
  | "text", none => some .text
  | "comment", none => some .comment
  | "processing-instruction", target => some (.instruction target)
  | "element", name => some (.element name)
  | "document-node", none => some .document
  | _, _ => none

/-- The argument, if any, and the parenthesis after it. -/
def readArgument (ts : List Token) : Reading (Option String) ts :=
  match ts with
  | .name a :: .symbol .rightParen :: rest => .ok (some a, .cons _ (.tail _ rest))
  | .literal a :: .symbol .rightParen :: rest => .ok (some a, .cons _ (.tail _ rest))
  | .symbol .star :: .symbol .rightParen :: rest => .ok (none, .cons _ (.tail _ rest))
  | .symbol .rightParen :: rest => .ok (none, .tail _ rest)
  | _ => .error (.expected .rightParen)

def readTest (ts : List Token) : Reading NodeTest ts :=
  match ts with
  | .symbol .star :: rest => .ok (.element none, .tail _ rest)
  | .name kind :: .symbol .leftParen :: rest => do
    let (argument, s) ← readArgument rest
    match NodeTest.ofKind? kind argument with
    | some test => return (test, .cons _ (.cons _ s))
    | none => .error (.unsupportedTest kind)
  | .name name :: rest => .ok (.element (some name), .tail _ rest)
  | t :: _ => .error (.expectedTest (some t))
  | [] => .error (.expectedTest none)

def readValue (ts : List Token) : Reading String ts :=
  match ts with
  | .literal v :: rest => .ok (v, .tail _ rest)
  | .number n :: rest => .ok (toString n, .tail _ rest)
  | _ => .error .expectedLiteral

/-- What follows the sign of an attribute. -/
def readAttribute (ts : List Token) : Reading Predicate ts :=
  match ts with
  | .name name :: .symbol .equal :: rest => do
    let (value, s) ← readValue rest
    return (.attribute name (some ⟨true, value⟩), .cons _ (.cons _ s))
  | .name name :: .symbol .notEqual :: rest => do
    let (value, s) ← readValue rest
    return (.attribute name (some ⟨false, value⟩), .cons _ (.cons _ s))
  | .name name :: rest => .ok (.attribute name none, .tail _ rest)
  | _ => .error .expectedAttributeName

mutual

def readQuery (ts : List Token) : Reading Query ts := do
  match ← readPath ts with
  | (path, ⟨.symbol .pipe :: rest, h⟩) =>
    let (paths, s) ← readQuery rest
    return (path :: paths, (s.cons _).trans h)
  | (path, s) => return ([path], s)
termination_by 6 * ts.length + 4
decreasing_by all_goals grind

def readPath (ts : List Token) : Reading Path ts :=
  match ts with
  | .symbol .slash :: rest =>
    if opensStep rest then do
      let (steps, s) ← readSteps rest
      return (.mk true steps, s.cons _)
    else .ok (.mk true [], .tail _ rest)
  | .symbol .doubleSlash :: rest => do
    let (steps, s) ← readSteps rest
    return (.mk true (.descendants :: steps), s.cons _)
  | ts => do
    let (steps, s) ← readSteps ts
    return (.mk false steps, s)
termination_by 6 * ts.length + 3
decreasing_by all_goals grind

def readSteps (ts : List Token) : Reading (List Step) ts := do
  match ← readStep ts with
  | (step, ⟨.symbol .slash :: rest, h⟩) =>
    let (steps, s) ← readSteps rest
    return (step :: steps, (s.cons _).trans h)
  | (step, ⟨.symbol .doubleSlash :: rest, h⟩) =>
    let (steps, s) ← readSteps rest
    return (step :: .descendants :: steps, (s.cons _).trans h)
  | (step, s) => return ([step], s)
termination_by 6 * ts.length + 2
decreasing_by all_goals grind

def readStep (ts : List Token) : Reading Step ts :=
  match ts with
  | .symbol .dot :: rest => .ok (.mk .self .any [], .tail _ rest)
  | .symbol .doubleDot :: rest => .ok (.mk .parent .any [], .tail _ rest)
  | .symbol .atSign :: _ => .error .attributeStep
  | .name name :: .symbol .doubleColon :: rest =>
    match Axis.ofName? name with
    | some axis => do
      let (step, s) ← readTested axis rest
      return (step, .cons _ (.cons _ s))
    | none => .error (.unsupportedAxis name)
  | ts => readTested .child ts
termination_by 6 * ts.length + 1
decreasing_by all_goals grind

def readTested (axis : Axis) (ts : List Token) : Reading Step ts := do
  let (test, s) ← readTest ts
  let (predicates, s) ← readPredicates s
  return (.mk axis test predicates, s)
termination_by 6 * ts.length
decreasing_by all_goals grind [Shorter]

def readPredicates {ts : List Token} (s : Shorter ts) : Reading (List Predicate) ts :=
  match s with
  | ⟨.symbol .leftBracket :: rest, h⟩ => do
    match ← readPredicate rest with
    | (predicate, ⟨.symbol .rightBracket :: rest, h'⟩) =>
      let (predicates, s) ← readPredicates ⟨rest, by grind⟩
      return (predicate :: predicates, s)
    | _ => .error (.expected .rightBracket)
  | s => .ok ([], s)
termination_by 6 * s.rest.length
decreasing_by all_goals grind [Shorter]

def readPredicate (ts : List Token) : Reading Predicate ts :=
  match ts with
  | .number n :: rest => .ok (.position n, .tail _ rest)
  | .symbol .atSign :: rest => do
    let (predicate, s) ← readAttribute rest
    return (predicate, s.cons _)
  | .name "not" :: .symbol .leftParen :: rest => do
    match ← readPredicate rest with
    | (predicate, ⟨.symbol .rightParen :: rest, h⟩) =>
      return (.not predicate, .cons _ (.cons _ ((Shorter.tail _ rest).trans h)))
    | _ => .error (.expected .rightParen)
  | ts => do
    let (paths, s) ← readQuery ts
    return (.selects paths, s)
termination_by 6 * ts.length + 5
decreasing_by all_goals grind

end

/-- All tokens have to be taken. -/
def ofTokens (ts : List Token) : Except Fault Query :=
  if ts.isEmpty then .error .empty
  else do
    match ← readQuery ts with
    | (query, ⟨[], _⟩) => return query
    | (_, ⟨t :: _, _⟩) => .error (.unexpected t)

def parse (s : String) : Except Fault Query := do
  ofTokens (← Token.list s.toList)

end Stylesheet.Query
