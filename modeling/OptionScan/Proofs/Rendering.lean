import OptionScan.Proofs.Drain
import OptionScan.Proofs.Names

/-!
Options written out as elements. An option can be written with its argument behind it in the same
element, or in an element of its own where the argument is required. Whatever the texts look like,
a vector that is written so and closed by the end marker is read back as the options that were
meant, and nothing in it is moved.
-/

namespace OptionScan

inductive Writing where
  | absent
  | attached (text : String)
  | detached (text : String)
  deriving DecidableEq, Repr

namespace Writing

def text? : Writing → Option String
  | absent => none
  | attached text | detached text => some text

/-- The elements of an option written so, given the option itself and what stands before an
argument in the same element. -/
def render (stem separator : String) : Writing → List String
  | absent => [stem]
  | attached text => [stem ++ separator ++ text]
  | detached text => [stem, text]

end Writing

def LetterKind.allows : LetterKind → Writing → Bool
  | flag, .absent | optional, .absent => true
  | required, .attached text | optional, .attached text => text != ""
  | required, .detached _ => true
  | _, _ => false

def ArgumentRule.allows : ArgumentRule → Writing → Bool
  | none, .absent | optional, .absent => true
  | required, .attached _ | optional, .attached _ => true
  | required, .detached _ => true
  | _, _ => false

inductive Intent where
  | letter (letter : Char) (argument : Writing)
  | entry (index : Nat) (entry : LongEntry) (argument : Writing)
  deriving DecidableEq, Repr

namespace Intent

def render : Intent → List String
  | letter c argument => argument.render ("-" ++ String.singleton c) ""
  | entry _ e argument => argument.render ("--" ++ e.name) "="

def finding : Intent → Finding
  | letter c argument => .found (.ofChar c) argument.text? none none
  | entry index e argument =>
    match e.cell with
    | none => .found e.value argument.text? (some index) none
    | some cell => .found .stored argument.text? (some index) (some ⟨cell, e.value⟩)

/-- The option can be written: its letter is no dash, its name can be told from the text after it
and belongs to no earlier entry, and the argument is written as the option allows. -/
inductive Fits (grammar : Grammar) : Intent → Prop where
  | letter {c : Char} {kind : LetterKind} {argument : Writing}
      (hkind : grammar.letters.kind? c = some kind) (hdash : c ≠ '-')
      (hallows : kind.allows argument) : Fits grammar (.letter c argument)
  | entry {index : Nat} {e : LongEntry} {argument : Writing}
      (hentry : grammar.table[index]? = some e) (hempty : e.name ≠ "")
      (hname : '=' ∉ e.name.toList) (hfirst : ∀ earlier ∈ grammar.table.take index,
        earlier.name ≠ e.name)
      (hallows : e.argument.allows argument) : Fits grammar (.entry index e argument)

end Intent

namespace Parse

def written (intents : List Intent) (rest : List String) : Parse where
  segments := intents.map fun intent => .option intent.render [intent.finding]
  marker := some endMarker
  rest := rest

variable (policy : OperandPolicy) (intents : List Intent) (rest : List String)

theorem findings_written : (written intents rest).findings policy = intents.map Intent.finding := by
  simp only [findings, written, List.flatMap_map, Segment.findings_option]
  exact List.map_eq_flatMap.symm

theorem passed_written : (written intents rest).passed policy = intents.flatMap Intent.render := by
  simp [passed, written, List.flatMap_map]

theorem held_written : (written intents rest).held policy = [] := by
  simp [held, written]

end Parse

section Read

variable {grammar : Grammar}

/-- A letter is read with its argument, as it is written. -/
theorem parseLetters_render {c : Char} {kind : LetterKind} {argument : Writing}
    (hkind : grammar.letters.kind? c = some kind) (hallows : kind.allows argument)
    (ahead : List String) :
    ∃ rest taken, (Intent.letter c argument).render = String.ofList ('-' :: c :: rest) :: taken ∧
      parseLetters grammar (taken ++ ahead) (c :: rest) =
        { findings := [.letter c argument.text?], taken := taken.length } := by
  cases argument with
  | absent =>
    refine ⟨[], [], by simp [Intent.render, Writing.render], ?_⟩
    cases kind with
    | flag =>
      rw [parseLetters_flag hkind, parseLetters]
      rfl
    | optional => exact parseLetters_optional hkind _
    | required => cases hallows
    | introducesName => cases hallows
  | attached text =>
    refine ⟨text.toList, [], by simp [Intent.render, Writing.render, String.ext_iff], ?_⟩
    have hread (hkind : grammar.letters.kind? c = some .required ∨
          grammar.letters.kind? c = some .optional) (htext : text ≠ "") :
        parseLetters grammar ([] ++ ahead) (c :: text.toList) =
          { findings := [.letter c (some text)] } := by
      rw [parseLetters_rest hkind (by simpa using htext), String.ofList_toList]
    cases kind with
    | flag => cases hallows
    | optional => exact hread (Or.inr hkind) (bne_iff_ne.mp hallows)
    | required => exact hread (Or.inl hkind) (bne_iff_ne.mp hallows)
    | introducesName => cases hallows
  | detached text =>
    refine ⟨[], [text], by simp [Intent.render, Writing.render], ?_⟩
    cases kind with
    | flag => cases hallows
    | optional => cases hallows
    | required => exact parseLetters_required hkind text ahead
    | introducesName => cases hallows

/-- A name is read with its argument, as it is written. -/
theorem parseName_render {index : Nat} {e : LongEntry} {argument : Writing}
    (hentry : grammar.table[index]? = some e) (hempty : e.name ≠ "")
    (hname : '=' ∉ e.name.toList)
    (hfirst : ∀ earlier ∈ grammar.table.take index, earlier.name ≠ e.name)
    (hallows : e.argument.allows argument) (ahead : List String) :
    ∃ token taken, (Intent.entry index e argument).render = ("--" ++ token) :: taken ∧
      token ≠ "" ∧
      parseName grammar.table token (taken ++ ahead) =
        { findings := [(Intent.entry index e argument).finding], taken := taken.length } := by
  have hresolve {token : String} {value : Option String}
      (hsplit : LongTable.splitToken token = (e.name, value)) :
      grammar.table.resolve token = .ok ⟨index, e, e.name, value⟩ :=
    LongTable.resolve_exact hentry hfirst hsplit
  cases argument with
  | absent =>
    have hrule : e.argument ≠ .required := by
      intro hrule
      rw [hrule] at hallows
      cases hallows
    exact ⟨e.name, [], rfl, hempty,
      parseName_alone (hresolve (LongTable.splitToken_name hname)) rfl hrule ahead⟩
  | attached text =>
    have hrule : e.argument ≠ .none := by
      intro hrule
      rw [hrule] at hallows
      cases hallows
    refine ⟨e.name ++ "=" ++ text, [], ?_, by simp,
      parseName_attached (hresolve (LongTable.splitToken_value hname text)) rfl hrule ahead⟩
    simp [Intent.render, Writing.render, String.append_assoc]
  | detached text =>
    have hrule : e.argument = .required := by
      cases hrule : e.argument with
      | required => rfl
      | none =>
        rw [hrule] at hallows
        cases hallows
      | optional =>
        rw [hrule] at hallows
        cases hallows
    exact ⟨e.name, [text], rfl, hempty,
      parseName_detached (hresolve (LongTable.splitToken_name hname)) rfl hrule text ahead⟩

variable {policy : OperandPolicy}

/-- An option with its arguments is one piece of the vector, whatever comes after it. -/
theorem parse_whole {element : String} {taken ahead : List String} {findings : List Finding}
    (hoption : ¬ isOperand element) (hmarker : element ≠ endMarker)
    (hmeaning : parseOption grammar element (taken ++ ahead) =
      { findings, taken := taken.length }) :
    parse grammar policy (element :: (taken ++ ahead)) =
      (parse grammar policy ahead).cons (.option (element :: taken) findings) := by
  rw [parse_option hoption hmarker (by rw [hmeaning]), hmeaning]
  simp

theorem parse_render {intent : Intent} (hfits : intent.Fits grammar) (ahead : List String) :
    parse grammar policy (intent.render ++ ahead) =
      (parse grammar policy ahead).cons (.option intent.render [intent.finding]) := by
  cases hfits with
  | letter hkind hdash hallows =>
    obtain ⟨rest, taken, hrender, hmeaning⟩ := parseLetters_render hkind hallows ahead
    rw [hrender]
    apply parse_whole
    · simp [isOperand, String.ext_iff]
    · simp [endMarker, String.ext_iff, hdash]
    · simpa [parseOption, hdash, Intent.finding, Finding.letter] using hmeaning
  | entry hentry hempty hname hfirst hallows =>
    obtain ⟨token, taken, hrender, htoken, hmeaning⟩ :=
      parseName_render hentry hempty hname hfirst hallows ahead
    rw [hrender]
    apply parse_whole
    · simp [isOperand, String.ext_iff]
    · simp [endMarker, String.ext_iff, htoken]
    · simpa [parseOption] using hmeaning

theorem parse_written {intents : List Intent} (hfits : ∀ intent ∈ intents, intent.Fits grammar)
    (rest : List String) :
    parse grammar policy (intents.flatMap Intent.render ++ endMarker :: rest) =
      .written intents rest := by
  induction intents with
  | nil => exact parse_marker
  | cons intent more ih =>
    obtain ⟨hfirst, hmore⟩ := List.forall_mem_cons.mp hfits
    rw [List.flatMap_cons, List.append_assoc, parse_render hfirst, ih hmore]
    rfl

end Read

namespace Host

/-- Options that are written out, closed by the end marker, are read back by a new session as they
were meant, with none in error and whatever is done at operands: the items, each with the flag
cells after it, are those intended, the vector stays as it is, and the cursor stops at the first
element behind the end marker. -/
theorem drain_rendering (config : Config) (reporter : Reporter) (grammar : Grammar)
    (intents : List Intent) (hfits : ∀ intent ∈ intents, intent.Fits grammar) (program : String)
    (rest : List String) (cells : List Int) :
    let args := program :: (intents.flatMap Intent.render ++ endMarker :: rest)
    let h : Host := { session := { config, reporter }, args, cells }
    ∃ replies, h.drain grammar = .ok replies ∧
      replies.getLast?.map Reply.code = some none ∧
      replies.filterMap (fun reply => reply.item?.map (·, reply.host.cells)) =
        Finding.results grammar.letters cells (intents.map Intent.finding) ∧
      (h.after replies).args = args ∧
      (h.after replies).session.cursor = (intents.flatMap Intent.render).length + 2 ∧
      (h.after replies).args.drop (h.after replies).session.cursor = rest := by
  intro args h
  have hparse : parse grammar (config.policy grammar.letters) (args.drop 1) =
      .written intents rest := parse_written hfits rest
  obtain ⟨replies, hdrained⟩ := exists_drained h grammar 1 (Nat.le_refl 1)
    (Session.startsAt_new config reporter) _ rfl _ hparse.symm
  refine ⟨replies, hdrained.drain_eq, hdrained.ended, ?_, ?_, ?_, ?_⟩
  · rw [hdrained.results_eq, Parse.findings_written]
  · rw [hdrained.args_eq, Parse.passed_written, Parse.held_written]
    simp [h, args, Parse.written]
  · rw [hdrained.cursor_eq, Parse.passed_written, List.length_append, Nat.add_comm]
    rfl
  · rw [hdrained.ahead_eq, Parse.held_written]
    rfl

/-- An argument that is the end marker, an entry whose name another one begins with, and an empty
argument behind a name. -/
theorem drain_rendering_lookalikes :
    ∃ replies,
      Host.drain
        { args := ["prog", "-é", "-b", "--", "--na", "--name=", "--", "-b"], cells := [0] }
        ⟨⟨"éb:"⟩, [⟨"name", .required, 300, none⟩, ⟨"na", .none, 5, some 0⟩]⟩ = .ok replies ∧
      replies.filterMap (fun reply => reply.item?.map (·, reply.host.cells)) =
        [(⟨233, none, none, none⟩, [0]), (⟨98, some "--", none, none⟩, [0]),
          (⟨0, none, some 1, none⟩, [5]), (⟨300, some "", some 0, none⟩, [5])] ∧
      (Host.after
        { args := ["prog", "-é", "-b", "--", "--na", "--name=", "--", "-b"], cells := [0] }
        replies).session.cursor = 7 := by
  obtain ⟨replies, hdrain, _, hresults, _, hcursor, _⟩ :=
    drain_rendering {} (Reporter.lines Reporter.defaultLabel)
      ⟨⟨"éb:"⟩, [⟨"name", .required, 300, none⟩, ⟨"na", .none, 5, some 0⟩]⟩
      [.letter 'é' .absent, .letter 'b' (.detached "--"), .entry 1 ⟨"na", .none, 5, some 0⟩ .absent,
        .entry 0 ⟨"name", .required, 300, none⟩ (.attached "")]
      (by
        simp only [List.forall_mem_cons]
        refine ⟨.letter rfl ?_ rfl, .letter rfl ?_ rfl, .entry rfl ?_ ?_ ?_ rfl,
          .entry rfl ?_ ?_ ?_ rfl, by simp⟩
        all_goals decide)
      "prog" ["-b"] [0]
  exact ⟨replies, hdrain, hresults, hcursor⟩

end Host

end OptionScan
