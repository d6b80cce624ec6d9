import HtmlTemplate.Html.Tokenizer

/-! Events in the hands of a listener, which may refuse one. The machine then stays
as it was when it reported that event, and the rest of the chunk is lost. -/

namespace HtmlTemplate.Html

variable {σ ε : Type}

/-- Hands events over in order, up to the first that is refused. -/
def deliver (listen : σ → Event → σ × Option ε) (s : σ) :
    List Emission → σ × Option (ε × Tokenizer)
  | [] => (s, none)
  | e :: es =>
    match listen s e.event with
    | (s, none) => deliver listen s es
    | (s, some refusal) => (s, some (refusal, e.source))

theorem deliver_append (listen : σ → Event → σ × Option ε) (s : σ) (es fs : List Emission) :
    deliver listen s (es ++ fs) =
      match deliver listen s es with
      | (s, none) => deliver listen s fs
      | (s, some refused) => (s, some refused) := by
  induction es generalizing s with
  | nil => rfl
  | cons e es ih =>
    simp only [List.cons_append, deliver]
    split
    · exact ih _
    · rfl

/-- A listener that keeps every event. It refuses faults of the text unless it is
lenient, and one event picked by its number. -/
structure Recorder where
  lenient : Bool := false
  refuseAt : Option Nat := none
  /-- How many events have come, resets aside. -/
  count : Nat := 0
  events : List Event := []
deriving Repr

namespace Recorder

def listen (r : Recorder) (e : Event) : Recorder × Option String :=
  match e with
  | .reset => ({ r with events := r.events ++ [e] }, none)
  | _ =>
    let refusal := if r.refuseAt == some r.count then some "stop" else
      match e with
      | .syntaxError fault _ => if r.lenient then none else some fault.message
      | _ => none
    ({ r with events := r.events ++ [e], count := r.count + 1 }, refusal)

end Recorder

/-- What can be done with a machine. -/
inductive Action where
  | feed (chunk : List Char)
  | document (text : List Char)
  | comment (text : List Char)
  | finishData
  | finish
  | reset
  | become (state : State)
  | moveTo (p : Position)
deriving Repr

def Action.perform (t : Tokenizer) : Action → List Emission × Tokenizer
  | feed chunk => t.feed chunk
  | document text => t.document text
  | comment text => t.appendComment text
  | finishData => t.finishData
  | finish => t.finish
  | reset => t.reset
  | become state => ([], t.become state)
  | moveTo p => ([], t.moveTo p)

/-- What an action has brought about. -/
structure Outcome where
  events : List Event
  tokenizer : Tokenizer
  refusal : Option String
deriving Repr

/-- A machine and the recorder that listens to it. -/
structure Session where
  tokenizer : Tokenizer
  recorder : Recorder

/-- A refusal does not end a session. -/
def Session.perform (s : Session) (a : Action) : Outcome × Session :=
  let (emitted, last) := a.perform s.tokenizer
  let (recorder, refused) := deliver Recorder.listen { s.recorder with events := [] } emitted
  let tokenizer := refused.elim last (·.2)
  (⟨recorder.events, tokenizer, refused.map (·.1)⟩, ⟨tokenizer, recorder⟩)

def Session.run (s : Session) : List Action → List Outcome
  | [] => []
  | a :: as =>
    let (outcome, s) := s.perform a
    outcome :: s.run as

end HtmlTemplate.Html
