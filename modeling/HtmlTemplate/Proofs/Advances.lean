import HtmlTemplate.Proofs.Feeds
import HtmlTemplate.Proofs.Moment

/-! Reading from a point between tags, with nothing under way, to the next one. -/

namespace HtmlTemplate.Tree

def extend (nodes : List Statement) : List (Nat × Frame) → List (Nat × Frame)
  | [] => []
  | (id, frame) :: frames => (id, frame.mapChildren (· ++ nodes)) :: frames

@[simp] theorem extend_nil (frames : List (Nat × Frame)) : extend [] frames = frames := by
  match frames with
  | [] => rfl
  | (id, .body children) :: frames => simp [extend, Frame.mapChildren]
  | (id, .element e) :: frames => simp [extend, Frame.mapChildren]

theorem extend_extend (nodes more : List Statement) (frames : List (Nat × Frame)) :
    extend more (extend nodes frames) = extend (nodes ++ more) frames := by
  match frames with
  | [] => rfl
  | (id, .body children) :: frames => simp [extend, Frame.mapChildren]
  | (id, .element e) :: frames => simp [extend, Frame.mapChildren]

theorem frames_append (stack : OpenElements) (node : Statement) :
    (stack.append node).frames = extend [node] stack.frames := by
  obtain ⟨_ | ⟨⟨id, frame⟩, frames⟩, nextId⟩ := stack <;> rfl

namespace Assembly

open Html (Tokenizer)

variable {src : Source} {a b c : Assembly} {p : Position} {start : Nat}
  {text rest : List Char} {nodes : List Statement}

/-- Nothing is under way and text is read as text. -/
structure Ready (a : Assembly) : Prop extends Idle a where
  name : a.tokenizer.tagName ∉ Html.rawElements

theorem Ready.isComment (h : a.Ready) : a.tokenizer.state.isComment = false := by
  rw [h.state]
  rfl

theorem Ready.append (h : a.Ready) (node : Statement) : (a.append node).Ready :=
  ⟨⟨h.state, h.current, h.pending⟩, h.name⟩

theorem Ready.pushBody (h : a.Ready) : a.pushBody.2.Ready :=
  ⟨⟨h.state, h.current, h.pending⟩, h.name⟩

/-- From one such point to another, some nodes have been put into the frame on top. -/
structure Grows (a : Assembly) (nodes : List Statement) (b : Assembly) : Prop where
  ready : b.Ready
  frames : b.markup.stack.frames = extend nodes a.markup.stack.frames

theorem Grows.refl (h : a.Ready) : a.Grows [] a := ⟨h, by simp⟩

theorem Grows.trans {more : List Statement} (h : a.Grows nodes b) (h' : b.Grows more c) :
    a.Grows (nodes ++ more) c :=
  ⟨h'.ready, by rw [h'.frames, h.frames, extend_extend]⟩

def moveTo (a : Assembly) (p : Position) : Assembly :=
  { a with tokenizer := a.tokenizer.moveTo p }

def read (src : Source) (a : Assembly) (text : List Char) : Except SyntaxError Assembly :=
  a.follow src (a.tokenizer.feed text) >>= fun a => a.follow src a.tokenizer.finishData

theorem Ready.read_nil (h : a.Ready) : a.read src [] = .ok a := by
  obtain ⟨⟨mode, state, q, l, n⟩, markup⟩ := a
  obtain rfl : state = .beforeData := h.state
  rfl

/-- A text between mustaches of which nothing has been trimmed. -/
def contentAt (p : Position) (text : List Char) : Mustache.Content :=
  { value := text, written := text, loc := ⟨p, p.after text⟩ }

theorem content_eq (a : Assembly) (htext : text ≠ []) :
    a.content src (contentAt p text) = (a.moveTo p).read src text := by
  obtain ⟨d, ds, rfl⟩ := List.exists_cons_of_ne_nil htext
  have hshift : Shift.ofTrimmed (d :: ds) (d :: ds) = ⟨0, 0⟩ := by
    simp [Shift.ofTrimmed, Shift.before?, Shift.across, Text.takeEndWhile]
  unfold content read
  simp only [contentAt, hshift]
  rfl

/-- A piece of a text between mustaches leads from one point to another if the rest of the
text, unless it goes on with text, is read from there. -/
structure Advances (src : Source) (p : Position) (a : Assembly) (text : List Char)
    (delimited : Bool) (b : Assembly) : Prop where
  position : b.tokenizer.position = p.after text
  read : ∀ rest, (delimited = true → rest.head?.all (· == '<') = true) →
    (a.moveTo p).read src (text ++ rest) = b.read src rest

theorem Feeds.advances (h : Feeds src (a.moveTo p) text b)
    (hposition : b.tokenizer.position = p.after text) (delimited : Bool) :
    Advances src p a text delimited b := by
  refine ⟨hposition, fun rest _ => ?_⟩
  unfold Assembly.read
  rw [h rest]

theorem text_advances {d : Char} (ha : a.Ready) (hd : d ≠ '\n') (hlt : '<' ∉ d :: text)
    (hamp : '&' ∉ d :: text) (hstands : src.Stands p start (d :: text ++ rest)) :
    ∃ b, Advances src p a (d :: text) true b
      ∧ a.Grows [.text ⟨d :: text, Draft.span start (d :: text)⟩] b := by
  obtain ⟨⟨mode, state, q, l, n⟩, ⟨stack, current, pending⟩⟩ := a
  obtain rfl : state = .beforeData := ha.state
  obtain rfl : current = none := ha.current
  obtain rfl : pending = none := ha.pending
  have hstart := hstands.offsetFor
  have hstop := hstands.after.offsetFor
  have hfeeds : Feeds src ⟨⟨mode, .beforeData, p, l, n⟩, ⟨stack, none, none⟩⟩ (d :: text) _ :=
    feeds_text hd hlt hamp
  refine ⟨⟨⟨mode, .beforeData, p.after (d :: text), l, n⟩, ⟨stack.append
    (.text ⟨d :: text, ⟨src.offsetFor p, src.offsetFor (p.after (d :: text))⟩⟩), none, none⟩⟩,
    ⟨rfl, fun rest hrest => ?_⟩, ⟨⟨rfl, rfl, rfl⟩, ha.name⟩, ?_⟩
  · unfold read
    show (follow src ⟨⟨mode, .beforeData, p, l, n⟩, ⟨stack, none, none⟩⟩
      (Tokenizer.feed ⟨mode, .beforeData, p, l, n⟩ (d :: text ++ rest)) >>= _) = _
    rw [hfeeds rest]
    cases rest with
    | nil => rfl
    | cons e rest =>
      obtain rfl : e = '<' := by simpa using hrest rfl
      have hended : Feeds src ⟨⟨mode, .data, p.after (d :: text), l, n⟩,
          ⟨stack, some (.text (d :: text) (src.offsetFor p)), none⟩⟩ ['<'] _ :=
        feeds_textBracket ha.name
      have hopened : Feeds src ⟨⟨mode, .beforeData, p.after (d :: text), l, n⟩, ⟨stack.append
          (.text ⟨d :: text, ⟨src.offsetFor p, src.offsetFor (p.after (d :: text))⟩⟩),
            none, none⟩⟩ ['<'] _ := feeds_bracket ha.name
      have hsame := (hended rest).trans (hopened rest).symm
      rw [List.singleton_append] at hsame
      rw [hsame]
  · show (stack.append _).frames = _
    rw [hstart, hstop]
    exact frames_append stack _

theorem ne_colon_of_isTag {name : List Char} (h : Draft.isTag name = true) : name ≠ [':'] := by
  rintro rfl
  exact absurd h (by decide)

theorem voidTag_advances {name : List Char} {as : List (List Char × List Char)} (ha : a.Ready)
    (htag : Draft.isTag name = true) (hvoid : Html.isVoid name = true)
    (has : ∀ a ∈ as, Draft.isAttribute a = true)
    (hstands : src.Stands p start (Draft.startTagText name as ++ rest)) (delimited : Bool) :
    ∃ b, Advances src p a (Draft.startTagText name as) delimited b
      ∧ a.Grows [.element ((plainElement name
          (Draft.attributesAt (start + 1 + byteLength name) as)
          (Draft.span start (Draft.startTagText name as))).finish
            (start + byteLength (Draft.startTagText name as)))] b := by
  obtain ⟨⟨mode, state, q, l, n⟩, ⟨stack, current, pending⟩⟩ := a
  obtain rfl : state = .beforeData := ha.state
  obtain rfl : current = none := ha.current
  obtain rfl : pending = none := ha.pending
  obtain ⟨-, -, -, -, -, hraw⟩ := chars_of_isTag htag
  have hopen := openElement_void src stack start (start + byteLength (Draft.startTagText name as))
    (ne_colon_of_isTag htag) hvoid (startsWithBar_attributes has (start + 1 + byteLength name))
  have hfeeds := feeds_startTag mode l htag ha.name has hstands hopen
  exact ⟨_, Feeds.advances hfeeds rfl delimited, ⟨⟨rfl, rfl, rfl⟩, hraw⟩, frames_append _ _⟩

theorem startTag_advances {name : List Char} {as : List (List Char × List Char)} (ha : a.Ready)
    (htag : Draft.isTag name = true) (hvoid : Html.isVoid name = false)
    (has : ∀ a ∈ as, Draft.isAttribute a = true)
    (hstands : src.Stands p start (Draft.startTagText name as ++ rest)) (delimited : Bool) :
    ∃ b id, Advances src p a (Draft.startTagText name as) delimited b ∧ b.Ready
      ∧ b.markup.stack.frames = (id, .element (plainElement name
          (Draft.attributesAt (start + 1 + byteLength name) as)
          (Draft.span start (Draft.startTagText name as)))) :: a.markup.stack.frames := by
  obtain ⟨⟨mode, state, q, l, n⟩, ⟨stack, current, pending⟩⟩ := a
  obtain rfl : state = .beforeData := ha.state
  obtain rfl : current = none := ha.current
  obtain rfl : pending = none := ha.pending
  obtain ⟨-, -, -, -, -, hraw⟩ := chars_of_isTag htag
  have hopen := openElement_plain src stack start (start + byteLength (Draft.startTagText name as))
    (ne_colon_of_isTag htag) hvoid (startsWithBar_attributes has (start + 1 + byteLength name))
  have hfeeds := feeds_startTag mode l htag ha.name has hstands hopen
  exact ⟨_, _, Feeds.advances hfeeds rfl delimited, ⟨⟨rfl, rfl, rfl⟩, hraw⟩, rfl⟩

def endTagText (name : List Char) : List Char :=
  '<' :: '/' :: name ++ ['>']

theorem endTag_advances {name : List Char} {id : Nat} {e : OpenElement}
    {frames : List (Nat × Frame)} (ha : a.Ready) (htag : Draft.isTag name = true)
    (hvoid : Html.isVoid name = false) (he : e.tag = name)
    (hframes : a.markup.stack.frames = (id, .element e) :: frames)
    (hstands : src.Stands p start (endTagText name ++ rest)) (delimited : Bool) :
    ∃ b, Advances src p a (endTagText name) delimited b ∧ b.Ready
      ∧ b.markup.stack.frames
        = extend [.element (e.finish (start + byteLength (endTagText name)))] frames := by
  obtain ⟨⟨mode, state, q, l, n⟩, ⟨⟨frames', nextId⟩, current, pending⟩⟩ := a
  obtain rfl : state = .beforeData := ha.state
  obtain rfl : current = none := ha.current
  obtain rfl : pending = none := ha.pending
  obtain rfl : frames' = (id, .element e) :: frames := hframes
  have hstop := hstands.after.offsetFor
  have hfeeds : Feeds src
      ⟨⟨mode, .beforeData, p, l, n⟩, ⟨⟨(id, .element e) :: frames, nextId⟩, none, none⟩⟩
      (endTagText name) _ := feeds_endTag htag hvoid ha.name he
  have hempty : [] ∉ Html.rawElements := by decide
  refine ⟨_, Feeds.advances hfeeds rfl delimited, ⟨⟨rfl, rfl, rfl⟩, hempty⟩, ?_⟩
  rw [← hstop]
  exact frames_append _ _

end Assembly

end HtmlTemplate.Tree
