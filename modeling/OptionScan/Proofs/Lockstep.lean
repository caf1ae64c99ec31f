import OptionScan.Proofs.Histories

/-!
Two hosts side by side. Whatever is compared of them and of their replies: if it is found alike
after one call, it is found alike after a history of operations. The two runs give their replies one
by one, or break off in the same place for the same reason.
-/

namespace OptionScan

/-- What a caller sees of a host between two calls. -/
structure Sight where
  args : List String
  cursor : Nat
  culprit : Code
  argument : Option String
  entryIndex : Option Nat
  error : Option OptionError
  cells : List Int
  deriving DecidableEq, Repr

def Host.sight (h : Host) : Sight where
  args := h.args
  cursor := h.session.cursor
  culprit := h.session.culprit
  argument := h.argumentText?
  entryIndex := h.session.entryIndex
  error := h.session.lastError
  cells := h.cells

inductive Abreast {α β : Type} (related : α → β → Prop) : Except Fault α → Except Fault β → Prop
  | ok {a : α} {b : β} (hrelated : related a b) : Abreast related (.ok a) (.ok b)
  | error (fault : Fault) : Abreast related (.error fault) (.error fault)

namespace Abreast

variable {α β γ δ : Type} {related : α → β → Prop} {x : Except Fault α} {y : Except Fault β}

theorem bind {related' : γ → δ → Prop} {f : α → Except Fault γ} {g : β → Except Fault δ}
    (h : Abreast related x y) (hthen : ∀ a b, related a b → Abreast related' (f a) (g b)) :
    Abreast related' (x >>= f) (y >>= g) := by
  cases h with
  | ok hrelated => exact hthen _ _ hrelated
  | error fault => exact .error fault

theorem map_eq {f : α → γ} {g : β → γ} (h : Abreast related x y)
    (hsame : ∀ a b, related a b → f a = g b) : x.map f = y.map g := by
  cases h with
  | ok hrelated => exact congrArg Except.ok (hsame _ _ hrelated)
  | error fault => rfl

end Abreast

namespace Host

def performAny (h : Host) : Option Operation → Except Fault (List Reply × Host)
  | none => .ok ([], h)
  | some operation => h.perform operation

/-- The run of a history in which operations were replaced or left out. -/
theorem run_filterMap_cons (h : Host) (inPlace : Operation → Option Operation)
    (operation : Operation) (history : List Operation) :
    h.run ((operation :: history).filterMap inPlace) = (do
      let (replies, next) ← h.performAny (inPlace operation)
      let (more, last) ← next.run (history.filterMap inPlace)
      .ok (replies ++ more, last)) := by
  rw [List.filterMap_cons]
  cases inPlace operation with
  | none =>
    show h.run (history.filterMap inPlace) = h.run (history.filterMap inPlace) >>= _
    cases h.run (history.filterMap inPlace) <;> rfl
  | some operation' => rfl

/-- Two calls that make the same reading, and give related replies to it. -/
theorem call_abreast {h h' : Host} {grammar grammar' : Grammar} {related : Reply → Reply → Prop}
    (hreading : h'.reading grammar' = h.reading grammar)
    (hreply : ∀ r, h.reading grammar = .ok r →
      related (h.reply grammar r) (h'.reply grammar' r)) :
    Abreast related (h.call grammar) (h'.call grammar') := by
  cases hread : h.reading grammar with
  | error fault =>
    rw [call_of_error hread, call_of_error (hreading.trans hread)]
    exact .error fault
  | ok r =>
    rw [call_of_reading hread, call_of_reading (hreading.trans hread)]
    exact .ok (hreply r hread)

end Host

/-- What is compared of two hosts and of their replies. The state tells what was seen so far. -/
structure Comparison (State : Type) where
  hosts : State → Host → Host → Prop
  /-- The last argument is the state after the replies. -/
  replies : State → Reply → Reply → State → Prop

namespace Comparison

variable {State : Type} (c : Comparison State)

inductive Series : State → List Reply → List Reply → State → Prop
  | nil (s : State) : Series s [] [] s
  | cons {s t u : State} {first first' : Reply} {more more' : List Reply}
      (hfirst : c.replies s first first' t) (hmore : Series t more more' u) :
      Series s (first :: more) (first' :: more') u

def Answers (s : State) (answer answer' : List Reply × Host) : Prop :=
  ∃ t, c.Series s answer.1 answer'.1 t ∧ c.hosts t answer.2 answer'.2

def Calls (grammar grammar' : Grammar) : Prop :=
  ∀ s h h', c.hosts s h h' →
    Abreast (fun reply reply' => (reply.code = none ↔ reply'.code = none) ∧
        ∃ t, c.replies s reply reply' t ∧ c.hosts t reply.host reply'.host)
      (h.call grammar) (h'.call grammar')

/-- Hosts that are alike remain so if one performs an operation and the other performs the one that
stands in its place, or does nothing where there is none. -/
def Performs (operation : Operation) (inPlace : Option Operation) : Prop :=
  ∀ s h h', c.hosts s h h' → Abreast (c.Answers s) (h.perform operation) (h'.performAny inPlace)

variable {c} {s t u : State} {h h' : Host}

/-- What is known of two replies is known of all. -/
theorem Series.forall₂ {related : Reply → Reply → Prop} {replies replies' : List Reply}
    (hseries : c.Series s replies replies' t)
    (hrelated : ∀ s reply reply' t, c.replies s reply reply' t → related reply reply') :
    List.Forall₂ related replies replies' := by
  induction hseries with
  | nil => exact .nil
  | cons hfirst _ ih => exact .cons (hrelated _ _ _ _ hfirst) ih

theorem Series.append {first first' more more' : List Reply} (hfirst : c.Series s first first' t)
    (hmore : c.Series t more more' u) : c.Series s (first ++ more) (first' ++ more') u := by
  induction hfirst with
  | nil => exact hmore
  | cons hreply _ ih => exact .cons hreply (ih hmore)

section Calls

variable {grammar grammar' : Grammar} (hcalls : c.Calls grammar grammar')
include hcalls

theorem collect_abreast (limit : Nat) (hhosts : c.hosts s h h') :
    Abreast
      (fun replies replies' =>
        c.Answers s (replies, h.after replies) (replies', h'.after replies'))
      (h.collect grammar limit) (h'.collect grammar' limit) := by
  induction limit generalizing s h h' with
  | zero => exact .ok ⟨s, .nil s, hhosts⟩
  | succ limit ih =>
    refine (hcalls s h h' hhosts).bind ?_
    rintro reply reply' ⟨hcode, t, hreply, hnext⟩
    cases hnone : reply.code with
    | none =>
      rw [hcode.mp hnone]
      exact .ok ⟨t, .cons hreply (.nil t), hnext⟩
    | some code =>
      obtain ⟨code', hsome⟩ : ∃ code', reply'.code = some code' := by
        rw [← Option.ne_none_iff_exists']
        intro hnone'
        rw [hcode.mpr hnone'] at hnone
        cases hnone
      rw [hsome]
      refine (ih hnext).bind ?_
      rintro more more' ⟨u, hmore, hlast⟩
      refine .ok ⟨u, .cons hreply hmore, ?_⟩
      rw [Host.after_cons, Host.after_cons]
      exact hlast

/-- Two whole scans. -/
theorem answers_of_drain (hhosts : c.hosts s h h') (hbound : h'.callBound = h.callBound)
    {replies replies' : List Reply} (hdrain : h.drain grammar = .ok replies)
    (hdrain' : h'.drain grammar' = .ok replies') :
    c.Answers s (replies, h.after replies) (replies', h'.after replies') := by
  have hsame := collect_abreast hcalls h.callBound hhosts
  unfold Host.drain at hdrain hdrain'
  rw [hdrain, ← hbound, hdrain'] at hsame
  cases hsame with
  | ok hanswers => exact hanswers

theorem performs_call : c.Performs (.call grammar) (some (.call grammar')) := by
  intro s h h' hhosts
  refine (hcalls s h h' hhosts).bind ?_
  rintro reply reply' ⟨_, t, hreply, hnext⟩
  exact .ok ⟨t, .cons hreply (.nil t), hnext⟩

theorem performs_collect (limit : Nat) :
    c.Performs (.collect grammar limit) (some (.collect grammar' limit)) := by
  intro s h h' hhosts
  exact (collect_abreast hcalls limit hhosts).bind fun _ _ hanswers => .ok hanswers

end Calls

/-- Two histories are run in lockstep if their operations can be performed so. -/
theorem run_abreast {inPlace : Operation → Option Operation}
    (hperforms : ∀ operation, c.Performs operation (inPlace operation)) (history : List Operation)
    (hhosts : c.hosts s h h') :
    Abreast (c.Answers s) (h.run history) (h'.run (history.filterMap inPlace)) := by
  induction history generalizing s h h' with
  | nil => exact .ok ⟨s, .nil s, hhosts⟩
  | cons operation history ih =>
    rw [Host.run_filterMap_cons, Host.run]
    refine (hperforms operation s h h' hhosts).bind ?_
    rintro ⟨replies, next⟩ ⟨replies', next'⟩ ⟨t, hreplies, hnext⟩
    refine (ih hnext).bind ?_
    rintro ⟨more, last⟩ ⟨more', last'⟩ ⟨u, hmore, hlast⟩
    exact .ok ⟨u, hreplies.append hmore, hlast⟩

end Comparison

end OptionScan
