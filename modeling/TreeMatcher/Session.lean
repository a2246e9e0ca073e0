import TreeMatcher.Compile.Basic
import TreeMatcher.Matcher.Spelling
import TreeMatcher.Pattern.Diagnostic

/-!
# Working with matchers step by step

A session keeps a pool of matchers. Its steps compile texts, build matchers from those in the pool,
rename and normalize them, and spell them again. A step that makes a matcher puts it at the end of
the pool; a step that fails leaves the pool as it is.

* `Session.run g steps` — the answers to some steps, in order.
* `Grammar.respell g source` — a text compiled, spelled, and compiled and spelled again.
-/

namespace TreeMatcher

/-- Why a step has no result. -/
inductive StepError where
  | compile (error : CompileError)
  | spelling (error : SpellingError)
  /-- There is no matcher of this number in the pool. -/
  | noMatcher
deriving DecidableEq, Repr

/-- The wording of the reason, if it has one. -/
def StepError.message? : StepError → Option Text
  | compile e => e.message?
  | spelling e => some e.message
  | noMatcher => some "no such matcher"

/-! ## Spelling a compiled text again -/

/-- A compiled text: its matcher, the spelling, and what that compiles to in turn. -/
structure Respelling where
  matcher : Matcher
  text : Text
  /-- Whether the spelling compiles to the same matcher, and its spelling. -/
  again : Except StepError (Bool × Text)

namespace Grammar

variable (g : Grammar)

/-- The matcher of a text. -/
def matcherOf (source : Text) : Except StepError Matcher :=
  match (g.matcherOfText source).result with
  | .ok (_, m) => .ok m
  | .error e => .error (.compile e)

/-- The spelling of a matcher. -/
def spellingOf (m : Matcher) : Except StepError Text :=
  match g.spell m with
  | .ok t => .ok t
  | .error e => .error (.spelling e)

/-- A text compiled and spelled, and its spelling compiled and spelled again. -/
def respell (source : Text) : Except StepError Respelling := do
  let m ← g.matcherOf source
  let text ← g.spellingOf m
  let again := do
    let m' ← g.matcherOf text
    let text' ← g.spellingOf m'
    pure (decide (m = m'), text')
  pure ⟨m, text, again⟩

end Grammar

/-! ## Sessions -/

namespace Session

/-- One step; matchers of the pool are given by their numbers. -/
inductive Step where
  | compile (source : Text)
  | recompile (of : Int)
  | leaf (token? : Option Number) (value? : Option Text)
  | node (symbol? : Option Number) (content? : Option (List Int))
  | wildcard (alternatives : List (List Int)) (min max : Number) (name? : Option Text)
  | negated (of : Int)
  | name (of : Int) (name : Text)
  | normalize (of : Int)
  | spell (of : Int)
  | recall (of : Int)
  | diagnose (source : Text)

/-- What a step gives. -/
inductive Result where
  /-- A new matcher, which goes into the pool. -/
  | made (matcher : Matcher)
  /-- A matcher that is in the pool already. -/
  | recalled (matcher : Matcher)
  | text (text : Text)
  | diagnosis (diagnosis : Diagnosis)

/-- The answer to a step: the events reported, and the result or the reason why there is none. -/
structure Answer where
  events : List Event
  result : Except StepError Result

/-- A matcher of the pool. -/
def pick (pool : List Matcher) (i : Int) : Except StepError Matcher :=
  if i < 0 then .error .noMatcher
  else
    match pool[i.toNat]? with
    | some m => .ok m
    | none => .error .noMatcher

/-- An answer without events. -/
def quiet (result : Except StepError Result) : Answer := ⟨[], result⟩

/-- The answer to compiling a text. -/
def compiling (g : Grammar) (source : Text) : Answer :=
  let o := g.matcherOfText source
  ⟨o.events,
    match o.result with
    | .ok (_, m) => .ok (.made m)
    | .error e => .error (.compile e)⟩

/-- A checked bound as a result of a step. -/
def checked (r : Except Matcher.BoundError Matcher) : Except StepError Result :=
  match r with
  | .ok m => .ok (.made m)
  | .error e => .error (.compile (.bounds e))

/-- The answer to one step. -/
def answer (g : Grammar) (pool : List Matcher) : Step → Answer
  | .compile source => compiling g source
  | .recompile i =>
    match (do g.spellingOf (← pick pool i)) with
    | .ok source => compiling g source
    | .error e => quiet (.error e)
  | .leaf token? value? => quiet (.ok (.made (.leaf token? value? none)))
  | .node symbol? none => quiet (.ok (.made (.node symbol? none none)))
  | .node symbol? (some content) =>
    quiet do
      let ms ← content.mapM (pick pool)
      pure (.made (.node symbol? (some ms) none))
  | .wildcard alternatives min max name? =>
    quiet do
      let as ← alternatives.mapM fun s => s.mapM (pick pool)
      checked (Matcher.wildcard? as min max name?)
  | .negated i => quiet do pure (.made (.negated (← pick pool i) none))
  | .name i name => quiet do pure (.made ((← pick pool i).withName name))
  | .normalize i => quiet do checked (← pick pool i).normalize
  | .spell i => quiet do pure (.text (← g.spellingOf (← pick pool i)))
  | .recall i => quiet do pure (.recalled (← pick pool i))
  | .diagnose source => quiet (.ok (.diagnosis (TreeMatcher.diagnose source)))

/-- The pool behind a step with a given answer. -/
def poolAfter (pool : List Matcher) (a : Answer) : List Matcher :=
  match a.result with
  | .ok (.made m) => pool ++ [m]
  | _ => pool

/-- The answers to some steps that begin with a given pool. -/
def runFrom (g : Grammar) (pool : List Matcher) : List Step → List Answer
  | [] => []
  | s :: steps =>
    let a := answer g pool s
    a :: runFrom g (poolAfter pool a) steps

/-- The answers to some steps that begin without matchers. -/
def run (g : Grammar) (steps : List Step) : List Answer := runFrom g [] steps

end Session

end TreeMatcher
