import OptionScan.Proofs.Endings

/-!
The flag cells over a whole history. A reply names the entry that its call has matched, and a call
writes to the cells what that entry stores, and nothing else. So the cells after a history are those
before it with the matches stored in order, and a cell holds what was stored there last.
-/

namespace OptionScan

def LongEntry.store? (entry : LongEntry) : Option Store :=
  entry.cell.map fun cell => ⟨cell, entry.value⟩

def Store.applyMatches (cells : List Int) (entries : List LongEntry) : List Int :=
  entries.foldl (fun cells entry => Store.apply cells entry.store?) cells

def LongEntry.lastValue? (entries : List LongEntry) (cell : Nat) : Option Int :=
  (entries.filter (·.cell = some cell)).getLast?.map LongEntry.value

def Operation.table : Operation → LongTable
  | .call grammar | .collect grammar _ => grammar.table
  | _ => []

def Reply.matched (table : LongTable) (reply : Reply) : List LongEntry :=
  (reply.host.session.entryIndex.bind (table[·]?)).toList

def Host.matched (h : Host) : List Operation → Except Fault (List LongEntry)
  | [] => .ok []
  | operation :: history => do
    let (replies, next) ← h.perform operation
    let later ← next.matched history
    .ok (replies.flatMap (Reply.matched operation.table) ++ later)

theorem Store.applyMatches_append (cells : List Int) (first more : List LongEntry) :
    applyMatches cells (first ++ more) = applyMatches (applyMatches cells first) more :=
  List.foldl_append

theorem Store.length_applyMatches (cells : List Int) (entries : List LongEntry) :
    (applyMatches cells entries).length = cells.length := by
  induction entries generalizing cells with
  | nil => rfl
  | cons entry rest ih =>
    have hstore : (Store.apply cells entry.store?).length = cells.length := by
      unfold Store.apply
      split
      · rfl
      · exact List.length_set
    exact (ih _).trans hstore

/-- The entry that a reply names is one of the table. -/
theorem Reply.mem_of_mem_matched {table : LongTable} {reply : Reply} {entry : LongEntry}
    (h : entry ∈ reply.matched table) : entry ∈ table := by
  obtain ⟨index, _, hentry⟩ := Option.bind_eq_some_iff.mp (Option.mem_toList.mp h)
  exact List.mem_of_getElem? hentry

/-- A match alters the cell of its entry alone. -/
theorem Store.getElem?_apply_match (cells : List Int) (entry : LongEntry) (cell : Nat) :
    (Store.apply cells entry.store?)[cell]? =
      if entry.cell = some cell then cells[cell]?.map fun _ => entry.value else cells[cell]? := by
  cases hcell : entry.cell with
  | none => simp [LongEntry.store?, hcell, Store.apply]
  | some bound =>
    simp [LongEntry.store?, hcell, Store.apply, List.getElem?_set', Function.const_def]

theorem LongEntry.lastValue?_cons (entry : LongEntry) (rest : List LongEntry) (cell : Nat) :
    lastValue? (entry :: rest) cell =
      if entry.cell = some cell then some ((lastValue? rest cell).getD entry.value)
      else lastValue? rest cell := by
  unfold lastValue?
  split
  · next hcell =>
    rw [List.filter_cons_of_pos (by simpa using hcell), List.getLast?_cons]
    cases (rest.filter (·.cell = some cell)).getLast? <;> rfl
  · next hcell => rw [List.filter_cons_of_neg (by simpa using hcell)]

/-- The last match that stores to a cell wins, whatever the others store elsewhere. -/
theorem Store.getElem?_applyMatches (cells : List Int) (entries : List LongEntry) (cell : Nat) :
    (applyMatches cells entries)[cell]? =
      cells[cell]?.map fun initial => (LongEntry.lastValue? entries cell).getD initial := by
  induction entries generalizing cells with
  | nil => simp [applyMatches, LongEntry.lastValue?]
  | cons entry rest ih =>
    have hrest : applyMatches cells (entry :: rest) =
        applyMatches (Store.apply cells entry.store?) rest := rfl
    rw [hrest, ih, Store.getElem?_apply_match, LongEntry.lastValue?_cons]
    split
    · simp [Option.map_map, Function.comp_def]
    · rfl

/-- A cell holds what it held, or what one of the matches stores. -/
theorem Store.mem_applyMatches {cells : List Int} {entries : List LongEntry} {value : Int}
    (h : value ∈ applyMatches cells entries) :
    value ∈ cells ∨ ∃ entry ∈ entries, entry.value = value := by
  obtain ⟨cell, hcell⟩ := List.mem_iff_getElem?.mp h
  rw [getElem?_applyMatches] at hcell
  obtain ⟨initial, hinitial, hvalue⟩ := Option.map_eq_some_iff.mp hcell
  cases hlast : LongEntry.lastValue? entries cell with
  | none =>
    rw [hlast] at hvalue
    exact Or.inl (hvalue ▸ List.mem_of_getElem? hinitial)
  | some last =>
    rw [hlast] at hvalue
    obtain ⟨entry, hentry, hstored⟩ := Option.map_eq_some_iff.mp hlast
    have hmem := (List.mem_filter.mp (List.mem_of_getLast? hentry)).1
    exact Or.inr ⟨entry, hmem, hstored.trans hvalue⟩

namespace Host

variable {h last : Host} {grammar : Grammar} {reply : Reply} {replies : List Reply}

theorem Ends.cells_eq {ending : Ending} (hends : h.Ends grammar reply ending) :
    reply.host.cells = Store.applyMatches h.cells (reply.matched grammar.table) := by
  cases hends with
  | failed error culprit code _ _ _ _ _ hentry hcells =>
    rw [hcells, Reply.matched, hentry]
    rfl
  | found code entryIndex store hsuccess _ _ _ hentry hcells =>
    rw [hcells, Reply.matched, hentry]
    cases hsuccess with
    | operand => rfl
    | letter => rfl
    | answered token resolved hresolve hcell =>
      simp [LongTable.getElem?_of_resolve hresolve, Store.applyMatches, LongEntry.store?, hcell]
    | stored token resolved cell hresolve hcell =>
      simp [LongTable.getElem?_of_resolve hresolve, Store.applyMatches, LongEntry.store?, hcell]
  | ended _ _ _ _ hentry hcells =>
    rw [hcells, Reply.matched, hentry]
    rfl

theorem call_cells (hcall : h.call grammar = .ok reply) :
    reply.host.cells = Store.applyMatches h.cells (reply.matched grammar.table) := by
  obtain ⟨ending, hends⟩ := exists_ends hcall
  exact hends.cells_eq

theorem collect_cells {limit : Nat} (hcollect : h.collect grammar limit = .ok replies) :
    (h.after replies).cells =
      Store.applyMatches h.cells (replies.flatMap (Reply.matched grammar.table)) := by
  induction limit generalizing h replies with
  | zero =>
    cases hcollect
    rfl
  | succ limit ih =>
    cases collects_of_collect hcollect with
    | ended first hcall _ =>
      rw [List.flatMap_singleton]
      exact call_cells hcall
    | found first more hcall _ hmore =>
      rw [after_cons, ih hmore, call_cells hcall, List.flatMap_cons, Store.applyMatches_append]

theorem perform_cells {operation : Operation} {next : Host}
    (hperform : h.perform operation = .ok (replies, next)) :
    next.cells =
      Store.applyMatches h.cells (replies.flatMap (Reply.matched operation.table)) := by
  cases operation with
  | call grammar =>
    obtain ⟨reply, hcall, hreplies⟩ := exists_of_bind_ok hperform
    cases hreplies
    rw [List.flatMap_singleton]
    exact call_cells hcall
  | collect grammar limit =>
    obtain ⟨all, hcollect, hreplies⟩ := exists_of_bind_ok hperform
    cases hreplies
    exact collect_cells hcollect
  | _ =>
    cases hperform
    rfl

theorem run_cells {history : List Operation} (hrun : h.run history = .ok (replies, last)) :
    ∃ entries, h.matched history = .ok entries ∧
      last.cells = Store.applyMatches h.cells entries := by
  induction history generalizing h replies with
  | nil =>
    cases hrun
    exact ⟨[], rfl, rfl⟩
  | cons operation history ih =>
    obtain ⟨⟨first, next⟩, hperform, hrest⟩ := exists_of_bind_ok hrun
    obtain ⟨⟨more, last'⟩, hmore, hreplies⟩ := exists_of_bind_ok hrest
    cases hreplies
    obtain ⟨later, hlater, hcells⟩ := ih hmore
    refine ⟨first.flatMap (Reply.matched operation.table) ++ later, ?_, ?_⟩
    · simp only [matched, hperform, bind, Except.bind, hlater]
    · rw [hcells, perform_cells hperform, Store.applyMatches_append]

end Host

end OptionScan
