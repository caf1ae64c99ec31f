import OptionScan.Session

/-!
A session together with what belongs to its caller: the vector, which a call may reorder, and the
flag cells, to which a call may store a value. Histories of a session are made of the operations
below.
-/

namespace OptionScan

structure Host where
  session : Session := {}
  args : List String
  cells : List Int := []

structure Reply where
  code : Option Code
  host : Host
  outputs : List Output

/-- An option as it is handed to a caller who does not look at the session. -/
structure Item where
  code : Code
  argument : Option String
  entryIndex : Option Nat
  error : Option OptionError
  deriving DecidableEq, Repr

def Item.letter? (item : Item) : Option Char :=
  item.code.char?

def Reply.item? (reply : Reply) : Option Item :=
  reply.code.map fun code =>
    { code
      argument := reply.host.session.argumentText? reply.host.args
      entryIndex := reply.host.session.entryIndex
      error := reply.host.session.lastError }

def Store.apply (cells : List Int) : Option Store → List Int
  | none => cells
  | some store => cells.set store.cell store.value

/-- The bytes and the elements of a vector, counted together. A call that finds an option uses up
at least one of them. -/
def volume : List String → Nat
  | [] => 0
  | element :: rest => byteWidth element.toList + 1 + volume rest

inductive Operation where
  | call (grammar : Grammar)
  /-- Find options until there are no more, or until the limit is reached. -/
  | collect (grammar : Grammar) (limit : Nat)
  | setCursor (cursor : Nat)
  | requestReset
  | setArgs (args : List String)
  | setReportErrors (on : Bool)
  | setReporter (reporter : Reporter)

namespace Host

def argumentText? (h : Host) : Option String :=
  h.session.argumentText? h.args

def call (h : Host) (grammar : Grammar) : Except Fault Reply := do
  let turn ← h.session.next grammar h.args
  .ok {
    code := turn.code
    host := { session := turn.session, args := turn.args, cells := Store.apply h.cells turn.store }
    outputs := turn.outputs }

/-- At most `limit` calls, up to and with the one that finds no more options. -/
def collect (h : Host) (grammar : Grammar) : (limit : Nat) → Except Fault (List Reply)
  | 0 => .ok []
  | limit + 1 => do
    let reply ← h.call grammar
    match reply.code with
    | none => .ok [reply]
    | some _ => do
      let more ← reply.host.collect grammar limit
      .ok (reply :: more)

def callBound (h : Host) : Nat :=
  volume h.args + 1

def drain (h : Host) (grammar : Grammar) : Except Fault (List Reply) :=
  h.collect grammar h.callBound

def after (h : Host) (replies : List Reply) : Host :=
  (replies.getLast?.map Reply.host).getD h

def perform (h : Host) : Operation → Except Fault (List Reply × Host)
  | .call grammar => do
    let reply ← h.call grammar
    .ok ([reply], reply.host)
  | .collect grammar limit => do
    let replies ← h.collect grammar limit
    .ok (replies, h.after replies)
  | .setCursor cursor => .ok ([], { h with session := h.session.setCursor cursor })
  | .requestReset => .ok ([], { h with session := h.session.requestReset })
  | .setArgs args => .ok ([], { h with args })
  | .setReportErrors on => .ok ([], { h with session := h.session.setReportErrors on })
  | .setReporter reporter => .ok ([], { h with session := h.session.setReporter reporter })

end Host

end OptionScan
