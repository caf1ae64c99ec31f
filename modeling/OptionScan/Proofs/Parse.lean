import OptionScan.Host

/-!
The grammar of a command line, as a recursion over a list of elements that nothing moves or
changes. Each option element is read together with the elements it takes as arguments; an operand
is an element by itself. What a scan finds call by call, while it moves the elements about, is
compared with this parse.
-/

namespace OptionScan

/-- What there is to say about one option: it could not be used, and what is to blame; or its code,
the text of its argument, the index of its entry and the value for its flag cell. -/
inductive Finding where
  | failed (error : OptionError) (culprit : Code)
  | found (code : Code) (argument : Option String) (entryIndex : Option Nat)
      (store : Option Store)
  deriving DecidableEq, Repr

namespace Finding

def letter (letter : Char) (argument : Option String) : Finding :=
  .found (.ofChar letter) argument none none

def operand (text : String) : Finding :=
  .found .operand (some text) none none

def entry (resolved : Resolution) (argument : Option String) : Finding :=
  match resolved.entry.cell with
  | none => .found resolved.entry.value argument (some resolved.index) none
  | some cell => .found .stored argument (some resolved.index) (some ⟨cell, resolved.entry.value⟩)

def item (letters : OptionString) : Finding → Item
  | failed error _ => ⟨error.code letters, none, none, some error⟩
  | found code argument entryIndex _ => ⟨code, argument, entryIndex, none⟩

def store : Finding → Option Store
  | failed _ _ => none
  | found _ _ _ store => store

end Finding

structure Meaning where
  findings : List Finding
  /-- How many of the elements after it are its arguments. -/
  taken : Nat := 0
  /-- The element after it is an empty name, which ends the options. -/
  ends : Bool := false
  deriving DecidableEq, Repr

def Meaning.cons (finding : Finding) (meaning : Meaning) : Meaning :=
  { meaning with findings := finding :: meaning.findings }

/-- A long option, of which the text `token` is given and the elements after it. The text after
`=` is the argument; a required one may be the next element. -/
def parseName (table : LongTable) (token : String) (ahead : List String) : Meaning :=
  match table.resolve token with
  | .error error => { findings := [.failed error 0] }
  | .ok resolved =>
    match resolved.entry.argument, resolved.value, ahead with
    | .none, some _, _ =>
      { findings := [.failed (.unwantedArgument resolved.name) resolved.entry.culprit] }
    | .required, none, [] =>
      { findings := [.failed (.missingNameArgument token) resolved.entry.culprit] }
    | .required, none, text :: _ => { findings := [.entry resolved (some text)], taken := 1 }
    | _, value, _ => { findings := [.entry resolved value] }

section Name

variable {table : LongTable} {token : String}

theorem parseName_unresolved {error : OptionError} (hresolve : table.resolve token = .error error)
    (ahead : List String) : parseName table token ahead = { findings := [.failed error 0] } := by
  unfold parseName
  simp only [hresolve]

variable {resolved : Resolution} (hresolve : table.resolve token = .ok resolved)
include hresolve

theorem parseName_unwanted {text : String} (hvalue : resolved.value = some text)
    (hrule : resolved.entry.argument = .none) (ahead : List String) :
    parseName table token ahead =
      { findings := [.failed (.unwantedArgument resolved.name) resolved.entry.culprit] } := by
  unfold parseName
  simp only [hresolve, hrule, hvalue]

theorem parseName_alone (hvalue : resolved.value = none)
    (hrule : resolved.entry.argument ≠ .required) (ahead : List String) :
    parseName table token ahead = { findings := [.entry resolved none] } := by
  unfold parseName
  cases hargument : resolved.entry.argument with
  | none => simp only [hresolve, hargument, hvalue]
  | optional => simp only [hresolve, hargument, hvalue]
  | required => exact absurd hargument hrule

theorem parseName_attached {text : String} (hvalue : resolved.value = some text)
    (hrule : resolved.entry.argument ≠ .none) (ahead : List String) :
    parseName table token ahead = { findings := [.entry resolved (some text)] } := by
  unfold parseName
  cases hargument : resolved.entry.argument with
  | none => exact absurd hargument hrule
  | optional => simp only [hresolve, hargument, hvalue]
  | required => simp only [hresolve, hargument, hvalue]

theorem parseName_detached (hvalue : resolved.value = none)
    (hrule : resolved.entry.argument = .required) (text : String) (ahead : List String) :
    parseName table token (text :: ahead) =
      { findings := [.entry resolved (some text)], taken := 1 } := by
  unfold parseName
  simp only [hresolve, hrule, hvalue]

theorem parseName_missing (hvalue : resolved.value = none)
    (hrule : resolved.entry.argument = .required) :
    parseName table token [] =
      { findings := [.failed (.missingNameArgument token) resolved.entry.culprit] } := by
  unfold parseName
  simp only [hresolve, hrule, hvalue]

end Name

/-- Option letters, up to the first that takes the rest of the element or the element after it. -/
def parseLetters (grammar : Grammar) (ahead : List String) : List Char → Meaning
  | [] => { findings := [] }
  | letter :: rest =>
    match grammar.letters.kind? letter, rest, ahead with
    | none, _, _ =>
      .cons (.failed (.unknownLetter letter) (.ofChar letter)) (parseLetters grammar ahead rest)
    | some .flag, _, _ => .cons (.letter letter none) (parseLetters grammar ahead rest)
    | some .required, _ :: _, _ | some .optional, _ :: _, _ =>
      { findings := [.letter letter (some (String.ofList rest))] }
    | some .optional, [], _ => { findings := [.letter letter none] }
    | some .required, [], text :: _ => { findings := [.letter letter (some text)], taken := 1 }
    | some .introducesName, _ :: _, _ => parseName grammar.table (String.ofList rest) ahead
    | some .introducesName, [], token :: more =>
      if token = "" then { findings := [], ends := true }
      else
        let meaning := parseName grammar.table token more
        { meaning with taken := meaning.taken + 1 }
    | some .required, [], [] | some .introducesName, [], [] =>
      { findings := [.failed (.missingLetterArgument letter) (.ofChar letter)] }

section Letters

variable {grammar : Grammar} {letter : Char}

theorem parseLetters_unknown (hkind : grammar.letters.kind? letter = none) (ahead : List String)
    (rest : List Char) :
    parseLetters grammar ahead (letter :: rest) =
      .cons (.failed (.unknownLetter letter) (.ofChar letter))
        (parseLetters grammar ahead rest) := by
  simp only [parseLetters, hkind]

theorem parseLetters_flag (hkind : grammar.letters.kind? letter = some .flag)
    (ahead : List String) (rest : List Char) :
    parseLetters grammar ahead (letter :: rest) =
      .cons (.letter letter none) (parseLetters grammar ahead rest) := by
  simp only [parseLetters, hkind]

/-- Text behind a letter is its argument, where the letter takes one. -/
theorem parseLetters_rest {rest : List Char}
    (hkind : grammar.letters.kind? letter = some .required ∨
      grammar.letters.kind? letter = some .optional)
    (hrest : rest ≠ []) (ahead : List String) :
    parseLetters grammar ahead (letter :: rest) =
      { findings := [.letter letter (some (String.ofList rest))] } := by
  obtain ⟨first, more, rfl⟩ := List.exists_cons_of_ne_nil hrest
  rcases hkind with hkind | hkind
  · simp only [parseLetters, hkind]
  · simp only [parseLetters, hkind]

theorem parseLetters_optional (hkind : grammar.letters.kind? letter = some .optional)
    (ahead : List String) :
    parseLetters grammar ahead [letter] = { findings := [.letter letter none] } := by
  simp only [parseLetters, hkind]

theorem parseLetters_required (hkind : grammar.letters.kind? letter = some .required)
    (text : String) (ahead : List String) :
    parseLetters grammar (text :: ahead) [letter] =
      { findings := [.letter letter (some text)], taken := 1 } := by
  simp only [parseLetters, hkind]

theorem parseLetters_missing
    (hkind : grammar.letters.kind? letter = some .required ∨
      grammar.letters.kind? letter = some .introducesName) :
    parseLetters grammar [] [letter] =
      { findings := [.failed (.missingLetterArgument letter) (.ofChar letter)] } := by
  rcases hkind with hkind | hkind
  · simp only [parseLetters, hkind]
  · simp only [parseLetters, hkind]

section Introduces

variable (hkind : grammar.letters.kind? letter = some .introducesName)
include hkind

theorem parseLetters_name {rest : List Char} (hrest : rest ≠ []) (ahead : List String) :
    parseLetters grammar ahead (letter :: rest) =
      parseName grammar.table (String.ofList rest) ahead := by
  obtain ⟨first, more, rfl⟩ := List.exists_cons_of_ne_nil hrest
  simp only [parseLetters, hkind]

theorem parseLetters_empty_name (ahead : List String) :
    parseLetters grammar ("" :: ahead) [letter] = { findings := [], ends := true } := by
  simp only [parseLetters, hkind, if_true]

theorem parseLetters_next_name {token : String} (htoken : token ≠ "") (ahead : List String) :
    parseLetters grammar (token :: ahead) [letter] =
      { parseName grammar.table token ahead with
        taken := (parseName grammar.table token ahead).taken + 1 } := by
  simp only [parseLetters, hkind, if_neg htoken]

end Introduces

end Letters

/-- A dash alone is an operand, and so is an element that does not start with a dash. -/
def isOperand (element : String) : Bool :=
  element == "-" || element.toList.head? != some '-'

def endMarker : String := "--"

def parseOption (grammar : Grammar) (element : String) (ahead : List String) : Meaning :=
  match element.toList with
  | '-' :: '-' :: token => parseName grammar.table (String.ofList token) ahead
  | '-' :: letters => parseLetters grammar ahead letters
  | _ => { findings := [] }

section Option

variable (grammar : Grammar) {element : String}

theorem parseOption_name {token : List Char} (hlist : element.toList = '-' :: '-' :: token) :
    parseOption grammar element = parseName grammar.table (String.ofList token) := by
  funext ahead
  simp only [parseOption, hlist]

theorem parseOption_letters {first : Char} {rest : List Char}
    (hlist : element.toList = '-' :: first :: rest) (hfirst : first ≠ '-') :
    parseOption grammar element = (parseLetters grammar · (first :: rest)) := by
  funext ahead
  simp [parseOption, hlist, hfirst]

/-- The end marker is the one element of two dashes and nothing else. -/
theorem token_ne_empty {token : List Char} (hlist : element.toList = '-' :: '-' :: token)
    (hmarker : element ≠ endMarker) : String.ofList token ≠ "" := by
  intro hempty
  apply hmarker
  have hnil : token = [] := by simpa using hempty
  rw [← String.ofList_toList (s := element), hlist, hnil]
  rfl

end Option

inductive Segment where
  | operand (text : String)
  /-- An option element and the elements that are its arguments. -/
  | option (elements : List String) (findings : List Finding)
  deriving DecidableEq, Repr

namespace Segment

def elements : Segment → List String
  | operand text => [text]
  | option elements _ => elements

def optionElements : Segment → List String
  | operand _ => []
  | option elements _ => elements

def operands : Segment → List String
  | operand text => [text]
  | option _ _ => []

/-- What the cursor leaves behind it; operands that are moved go ahead of it. -/
def passed (policy : OperandPolicy) (s : Segment) : List String :=
  if policy = .move then s.optionElements else s.elements

def held (policy : OperandPolicy) (s : Segment) : List String :=
  if policy = .move then s.operands else []

def findings (policy : OperandPolicy) : Segment → List Finding
  | operand text => if policy = .report then [.operand text] else []
  | option _ findings => findings

section Option

variable (policy : OperandPolicy) (elements : List String) (findings : List Finding)

@[simp] theorem findings_option : (option elements findings).findings policy = findings := rfl

@[simp] theorem passed_option : (option elements findings).passed policy = elements :=
  ite_self _

@[simp] theorem held_option : (option elements findings).held policy = [] :=
  ite_self _

end Option

end Segment

/-- A whole vector: its pieces up to where the options end, the element that ended them, if one
did, and what is not read any more. -/
structure Parse where
  segments : List Segment := []
  marker : Option String := none
  rest : List String := []
  deriving DecidableEq, Repr

namespace Parse

def cons (segment : Segment) (p : Parse) : Parse :=
  { p with segments := segment :: p.segments }

def optionElements (p : Parse) : List String :=
  p.segments.flatMap Segment.optionElements

def operands (p : Parse) : List String :=
  p.segments.flatMap Segment.operands

def passed (policy : OperandPolicy) (p : Parse) : List String :=
  p.segments.flatMap (Segment.passed policy)

def held (policy : OperandPolicy) (p : Parse) : List String :=
  p.segments.flatMap (Segment.held policy)

def findings (policy : OperandPolicy) (p : Parse) : List Finding :=
  p.segments.flatMap (Segment.findings policy)

section Cons

variable (segment : Segment) (p : Parse) (policy : OperandPolicy)

@[simp] theorem findings_cons :
    (p.cons segment).findings policy = segment.findings policy ++ p.findings policy := by
  simp [findings, cons]

@[simp] theorem passed_cons :
    (p.cons segment).passed policy = segment.passed policy ++ p.passed policy := by
  simp [passed, cons]

@[simp] theorem held_cons :
    (p.cons segment).held policy = segment.held policy ++ p.held policy := by
  simp [held, cons]

@[simp] theorem marker_cons : (p.cons segment).marker = p.marker := rfl

@[simp] theorem rest_cons : (p.cons segment).rest = p.rest := rfl

end Cons

theorem passed_move (p : Parse) : p.passed .move = p.optionElements := rfl

theorem held_report (p : Parse) : p.held .report = [] := by
  simp [held, Segment.held]

end Parse

/-- Parses a vector. The options end at the end marker, at an empty name taken from the next
element, and, if the policy says so, at the first operand. -/
def parse (grammar : Grammar) (policy : OperandPolicy) : List String → Parse
  | [] => {}
  | element :: ahead =>
    if isOperand element then
      if policy = .stop then { rest := element :: ahead }
      else (parse grammar policy ahead).cons (.operand element)
    else if element = endMarker then { marker := some element, rest := ahead }
    else
      let meaning := parseOption grammar element ahead
      let segment := Segment.option (element :: ahead.take meaning.taken) meaning.findings
      if meaning.ends then
        { segments := [segment], marker := ahead.head?, rest := ahead.tail }
      else (parse grammar policy (ahead.drop meaning.taken)).cons segment
termination_by elements => elements.length
decreasing_by
  · simp
  · simp only [List.length_drop, List.length_cons]
    omega

/-- Induction along a parse, with a case for each way in which it can go on or end. -/
@[elab_as_elim]
theorem parse_induction (grammar : Grammar) (policy : OperandPolicy)
    {motive : List String → Prop} (nil : motive [])
    (stop : ∀ element ahead, isOperand element → policy = .stop → motive (element :: ahead))
    (operand : ∀ element ahead, isOperand element → policy ≠ .stop → motive ahead →
      motive (element :: ahead))
    (marker : ∀ ahead, motive (endMarker :: ahead))
    (ends : ∀ element ahead, ¬ isOperand element → element ≠ endMarker →
      (parseOption grammar element ahead).ends = true → motive (element :: ahead))
    (option : ∀ element ahead, ¬ isOperand element → element ≠ endMarker →
      (parseOption grammar element ahead).ends = false →
      motive (ahead.drop (parseOption grammar element ahead).taken) → motive (element :: ahead))
    (elements : List String) : motive elements := by
  induction elements using parse.induct grammar policy with
  | case1 => exact nil
  | case2 element ahead hoperand hpolicy => exact stop element ahead hoperand hpolicy
  | case3 element ahead hoperand hpolicy ih => exact operand element ahead hoperand hpolicy ih
  | case4 ahead _ => exact marker ahead
  | case5 element ahead hoption hmarker =>
    rename_i hends
    exact ends element ahead hoption hmarker hends
  | case6 element ahead hoption hmarker =>
    rename_i hends ih
    exact option element ahead hoption hmarker (by simpa using hends) ih

section Equations

variable {grammar : Grammar} {policy : OperandPolicy} {element : String} {ahead : List String}

theorem parse_stop (hoperand : isOperand element) :
    parse grammar .stop (element :: ahead) = { rest := element :: ahead } := by
  rw [parse, if_pos hoperand, if_pos rfl]

theorem parse_operand (hoperand : isOperand element) (hpolicy : policy ≠ .stop) :
    parse grammar policy (element :: ahead) =
      (parse grammar policy ahead).cons (.operand element) := by
  rw [parse, if_pos hoperand, if_neg hpolicy]

theorem parse_marker :
    parse grammar policy (endMarker :: ahead) = { marker := some endMarker, rest := ahead } := by
  rw [parse, if_neg (by decide), if_pos rfl]

theorem parse_ends (hoption : ¬ isOperand element) (hmarker : element ≠ endMarker)
    (hends : (parseOption grammar element ahead).ends = true) :
    parse grammar policy (element :: ahead) =
      { segments := [.option (element :: ahead.take (parseOption grammar element ahead).taken)
          (parseOption grammar element ahead).findings]
        marker := ahead.head?
        rest := ahead.tail } := by
  rw [parse, if_neg hoption, if_neg hmarker]
  simp only [hends, if_true]

theorem parse_option (hoption : ¬ isOperand element) (hmarker : element ≠ endMarker)
    (hends : (parseOption grammar element ahead).ends = false) :
    parse grammar policy (element :: ahead) =
      (parse grammar policy (ahead.drop (parseOption grammar element ahead).taken)).cons
        (.option (element :: ahead.take (parseOption grammar element ahead).taken)
          (parseOption grammar element ahead).findings) := by
  rw [parse, if_neg hoption, if_neg hmarker]
  simp [hends]

end Equations

end OptionScan
