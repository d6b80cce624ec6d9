import HtmlTemplate.Html.Tokenizer
import HtmlTemplate.Proofs.Order

/-! What the machine may report next. As far as has been reported some construct is under
way, and each report moves on from it: a text begins, grows and ends, and so does a tag with
its attributes. Whatever holds of the reports in order is proved of single moves. -/

namespace HtmlTemplate.Html

inductive TagKind where
  | start
  | stop
deriving DecidableEq

/-- The construct that is under way as far as has been reported. -/
inductive Construct where
  | none
  /-- A `<` has been read, of which nothing has been reported yet. -/
  | opening (lt : Position)
  /-- So has `</`. -/
  | ending (lt : Position)
  | text (blank : Bool)
  | comment
  | tagName (k : TagKind) (blank : Bool)
  /-- A tag outside its name and its attributes. -/
  | tag (k : TagKind) (closing : Bool)
  /-- An attribute before its value. -/
  | attribute (k : TagKind) (blank : Bool)
  | value (k : TagKind)

def Event.beginTag : TagKind → Position → Event
  | .start => beginStartTag
  | .stop => beginEndTag

/-- Time goes on, or something is reported: the construct and the position before it, the
report, and the construct and the position after it. -/
inductive Move : Construct → Position → Option Event → Construct → Position → Prop
  | wait {x : Construct} {p q : Position} : p ≤ q → Move x p none x q
  | openTag {p : Position} : Move .none p none (.opening p) p
  | turn {l p : Position} : Move (.opening l) p none (.ending l) p
  | endName {k : TagKind} {p : Position} : Move (.tagName k false) p none (.tag k false) p
  | fault {x : Construct} {f : Fault} {p : Position} : Move x p (some (.syntaxError f p)) x p
  | refuse {f : Fault} {l p : Position} :
      Move (.opening l) p (some (.syntaxError f l)) .none p
  | refuseEnd {f : Fault} {l p : Position} :
      Move (.ending l) p (some (.syntaxError f l)) .none p
  | beginText {p : Position} : Move .none p (some (.beginData p)) (.text true) p
  | beginBracket {l p : Position} : Move (.opening l) p (some (.beginData l)) (.text true) p
  | data {b : Bool} {text : List Char} {p : Position} : text ≠ [] →
      Move (.text b) p (some (.data text)) (.text false) p
  | finishText {p : Position} : Move (.text false) p (some (.finishData p)) .none p
  | beginComment {l p : Position} : Move (.opening l) p (some (.beginComment l)) .comment p
  | commentData {text : List Char} {p : Position} :
      Move .comment p (some (.commentData text)) .comment p
  | finishComment {p : Position} : Move .comment p (some (.finishComment p)) .none p
  | beginStartTag {l p : Position} :
      Move (.opening l) p (some (.beginStartTag l)) (.tagName .start true) p
  | beginEndTag {l p : Position} :
      Move (.ending l) p (some (.beginEndTag l)) (.tagName .stop true) p
  | growName {k : TagKind} {b : Bool} {c : Char} {p : Position} :
      Move (.tagName k b) p (some (.tagName c)) (.tagName k false) p
  | selfClosing {k : TagKind} {p : Position} :
      Move (.tag k false) p (some .selfClosing) (.tag k true) p
  | finishTag {k : TagKind} {b : Bool} {p : Position} :
      Move (.tag k b) p (some (.finishTag p)) .none p
  | beginAttribute {k : TagKind} {p : Position} :
      Move (.tag k false) p (some (.beginAttribute p)) (.attribute k true) p
  | growAttribute {k : TagKind} {b : Bool} {c : Char} {p : Position} :
      Move (.attribute k b) p (some (.attributeName c)) (.attribute k false) p
  | beginValue {k : TagKind} {quoted : Bool} {p : Position} :
      Move (.attribute k false) p (some (.beginAttributeValue quoted p)) (.value k) p
  | valueText {k : TagKind} {text : List Char} {p q : Position} : p ≤ q →
      Move (.value k) p (some (.attributeValue text ⟨p, q⟩)) (.value k) q
  | finishValue {k : TagKind} {p : Position} :
      Move (.value k) p (some (.finishAttributeValue p)) (.tag k false) p

/-- Some reports one after the other. -/
inductive Moves : Construct → Position → List Event → Construct → Position → Prop
  | refl {x : Construct} {p : Position} : Moves x p [] x p
  | move {x y z : Construct} {p q r : Position} {es : List Event} {e : Option Event} :
      Moves x p es y q → Move y q e z r → Moves x p (es ++ e.toList) z r

section
variable {x y z : Construct} {p q r : Position} {es fs : List Event}

theorem Moves.silent (h : Moves x p es y q) (hm : Move y q none z r) : Moves x p es z r := by
  simpa using h.move hm

theorem Moves.trans (h : Moves x p es y q) (h' : Moves y q fs z r) : Moves x p (es ++ fs) z r := by
  induction h' with
  | refl => simpa using h
  | move _ hm ih =>
    rw [← List.append_assoc]
    exact (ih h).move hm

theorem Moves.split {e : Event} (h : Moves x p (es ++ e :: fs) z r) :
    ∃ y q y' q', Moves x p es y q ∧ Move y q (some e) y' q' := by
  generalize hall : es ++ e :: fs = all at h
  induction h generalizing fs with
  | refl => simp at hall
  | @move y _ _ q _ before e' h hm ih =>
    cases e' with
    | none => exact ih (by simpa using hall)
    | some e' =>
      rcases List.eq_nil_or_concat fs with rfl | ⟨fs, last, rfl⟩
      · obtain ⟨rfl, he⟩ := List.append_inj' (hall : es ++ [e] = before ++ [e']) rfl
        obtain rfl := List.singleton_inj.mp he
        exact ⟨y, q, _, _, h, hm⟩
      · rw [List.concat_eq_append, ← List.cons_append, ← List.append_assoc] at hall
        exact ih (List.append_inj' hall rfl).1

theorem Moves.reset_not_mem (h : Moves x p es y q) : .reset ∉ es := by
  intro hreset
  obtain ⟨before, after, rfl⟩ := List.append_of_mem hreset
  obtain ⟨_, _, _, _, -, hmove⟩ := h.split
  cases hmove

theorem Moves.commentDatas (hes : ∀ {e}, e ∈ es → ∃ text, e = .commentData text) :
    Moves .comment p es .comment p := by
  induction es with
  | nil => exact .refl
  | cons e es ih =>
    obtain ⟨text, rfl⟩ := hes List.mem_cons_self
    have hfirst : Moves .comment p [] .comment p := .refl
    exact (hfirst.move (e := some (.commentData text)) .commentData).trans
      (ih fun he => hes (List.mem_cons_of_mem _ he))

end

/-- The construct under way in each state of the machine. The state of a machine in a tag
does not tell the kind of the tag. -/
def Tokenizer.construct (t : Tokenizer) (k : TagKind) : Construct :=
  match t.state with
  | .beforeData => .none
  | .data => .text false
  | .tagOpen | .markupDeclarationOpen => .opening t.tagStart
  | .endTagOpen => .ending t.tagStart
  | .commentStart | .commentStartDash | .comment | .commentEndDash | .commentEnd => .comment
  | .tagName => .tagName .start false
  | .endTagName => .tagName .stop false
  | .beforeAttributeName | .afterAttributeValueQuoted | .selfClosingStartTag => .tag k false
  | .attributeName | .afterAttributeName | .beforeAttributeValue => .attribute k false
  | .attributeValueDoubleQuoted | .attributeValueSingleQuoted | .attributeValueUnquoted => .value k

theorem Tokenizer.construct_of_isComment {t : Tokenizer} {k : TagKind}
    (h : t.state.isComment = true) : t.construct k = .comment := by
  revert h
  cases hstate : t.state <;> simp [construct, hstate, State.isComment]

namespace Step

def Tells (x : Construct) (p : Position) (y : Construct) (s : Step) : Prop :=
  Moves x p (s.emitted.map (·.event)) y s.now.position

def Settles (x : Construct) (p : Position) (s : Step) : Prop :=
  ∃ k, s.Tells x p (s.now.construct k)

variable {x y z : Construct} {p : Position} {k : TagKind} {b : Bool} {s : Step}

theorem Tells.settles (h : s.Tells x p y) (k : TagKind) (hy : s.now.construct k = y) :
    s.Settles x p :=
  ⟨k, hy ▸ h⟩

theorem Tells.silent (h : s.Tells x p y) (hm : Move y s.now.position none z s.now.position) :
    s.Tells x p z :=
  Moves.silent h hm

theorem Tells.emit (h : s.Tells x p y) {e : Event}
    (hm : Move y s.now.position (some e) z s.now.position) : (s.emit e).Tells x p z := by
  unfold Tells Step.emit
  rw [List.map_append]
  exact Moves.move h hm

theorem Tells.moved (h : s.Tells x p y) {s' : Step} (cs : List Char)
    (hemitted : s'.emitted = s.emitted)
    (hposition : s'.now.position = s.now.position.after cs) : s'.Tells x p y := by
  unfold Tells
  rw [hemitted, hposition]
  exact Moves.silent h (.wait (Position.le_after _ cs))

theorem Tells.become (h : s.Tells x p y) (state : State) : (s.become state).Tells x p y := h

theorem Tells.forgetName (h : s.Tells x p y) : s.forgetName.Tells x p y := h

theorem Tells.read (h : s.Tells x p y) (c : Char) : (s.read c).Tells x p y :=
  h.moved [c] rfl rfl

theorem Tells.readAhead (h : s.Tells x p y) (cs : List Char) : (s.readAhead cs).Tells x p y :=
  h.moved cs rfl rfl

theorem decode_ne_nil (s : Step) (c : Char) (rest : List Char) : (s.decode c rest).1 ≠ [] := by
  unfold decode
  repeat' split
  all_goals exact List.cons_ne_nil _ _

theorem decode_moved (s : Step) (c : Char) (rest : List Char) :
    ∃ cs, (s.decode c rest).2.emitted = s.emitted
      ∧ (s.decode c rest).2.now = { s.now with position := s.now.position.after cs } := by
  unfold decode
  split
  · split
    · exact ⟨_, rfl, rfl⟩
    · exact ⟨[], rfl, rfl⟩
  · exact ⟨[], rfl, rfl⟩

theorem Tells.growName (h : s.Tells x p (.tagName k b)) (c : Char) :
    (s.growName c).Tells x p (.tagName k false) := by
  have h' : Tells x p (.tagName k b)
      { s with now := { s.now with tagName := s.now.tagName ++ [c] } } :=
    h
  exact h'.emit .growName

theorem Tells.emptyValue (h : s.Tells x p (.attribute k false)) :
    s.emptyValue.Tells x p (.tag k false) :=
  Tells.emit (s := s.emitHere (.beginAttributeValue false)) (h.emit .beginValue) .finishValue

theorem Tells.closeTag (h : s.Tells x p (.tag k b)) : s.closeTag.Settles x p :=
  Tells.settles (y := .none) (h.emit .finishTag) .start rfl

theorem Tells.closeComment (h : s.Tells x p .comment) : s.closeComment.Settles x p :=
  Tells.settles (y := .none) (h.emit .finishComment) .start rfl

theorem Tells.valueText (h : s.Tells x p (.value k)) (c : Char) (rest : List Char) :
    (s.valueText c rest).Tells x p (.value k) := by
  obtain ⟨cs, hemitted, hnow⟩ := decode_moved (s.read c) c rest
  have hle : s.now.position ≤ ((s.read c).decode c rest).2.now.position := by
    rw [hnow]
    exact le_trans (Position.le_next _ c) (Position.le_after _ cs)
  unfold Step.valueText
  generalize (s.read c).decode c rest = decoded at *
  obtain ⟨text, s'⟩ := decoded
  have hs : s'.emitted = s.emitted := hemitted
  unfold Tells Step.emit
  rw [List.map_append, hs]
  exact Moves.move h (.valueText hle)

theorem valueText_state (s : Step) (c : Char) (rest : List Char) :
    (s.valueText c rest).now.state = s.now.state := by
  obtain ⟨cs, -, hnow⟩ := decode_moved (s.read c) c rest
  show ((s.read c).decode c rest).2.now.state = s.now.state
  rw [hnow]
  rfl

section
variable (c : Char) (rest : List Char)

theorem data_settles (h : s.Tells x p (.text b)) (hstate : s.now.state = .data)
    (hblank : b = false ∨ (c = '<' && !s.isRawText c rest) = false) :
    (s.data c rest).Settles x p := by
  unfold Step.data
  split
  · rename_i hopens
    obtain rfl : b = false := hblank.resolve_right (by simp [hopens])
    have hfinish : (s.emitHere .finishData).Tells x p .none := h.emit .finishText
    have hopen : (s.emitHere .finishData).openTag.Tells x p (.opening s.now.position) :=
      hfinish.silent .openTag
    exact ((hopen.become .tagOpen).read c).settles .start rfl
  · split
    · have hdata : ((s.read c).emit (.data [c])).Tells x p (.text false) :=
        (h.read c).emit (.data (List.cons_ne_nil _ _))
      exact hdata.settles .start (by simp [Tokenizer.construct, emit, read, hstate])
    · obtain ⟨cs, hemitted, hnow⟩ := decode_moved (s.read c) c rest
      have hdecoded := (h.read c).moved cs hemitted (by rw [hnow])
      have htext := decode_ne_nil (s.read c) c rest
      generalize (s.read c).decode c rest = decoded at *
      obtain ⟨text, s'⟩ := decoded
      have hdata : (s'.emit (.data text)).Tells x p (.text false) := hdecoded.emit (.data htext)
      have hstate' : s'.now.state = .data := by
        rw [show s'.now = _ from hnow]
        exact hstate
      exact hdata.settles .start (by simp [Tokenizer.construct, emit, hstate'])

theorem beforeData_settles (h : s.Tells x p .none) (hstate : s.now.state = .beforeData) :
    (s.beforeData c rest).Settles x p := by
  unfold Step.beforeData
  split
  · have hopen : s.openTag.Tells x p (.opening s.now.position) := h.silent .openTag
    exact ((hopen.become .tagOpen).read c).settles .start rfl
  · rename_i hopens
    split
    · exact (h.forgetName.read c).settles .start
        (by simp [Tokenizer.construct, forgetName, read, hstate])
    · have hbegin : ((s.become .data).emitHere .beginData).Tells x p (.text true) :=
        (h.become .data).emit .beginText
      exact data_settles c rest hbegin rfl (.inr (Bool.eq_false_iff.mpr hopens))

theorem tagOpen_settles (h : s.Tells x p (.opening s.now.tagStart)) :
    (s.tagOpen c).Settles x p := by
  have hread := h.read c
  unfold Step.tagOpen
  dsimp only
  split
  · exact (hread.become .markupDeclarationOpen).settles .start rfl
  · split
    · exact Tells.settles (s := (s.read c).become .endTagOpen) (hread.silent .turn) .start rfl
    · split
      · have hbegin : ((((s.read c).become .tagName).forgetName).emit
            (.beginStartTag s.now.tagStart)).Tells x p (.tagName .start true) :=
          Tells.emit (s := ((s.read c).become .tagName).forgetName) hread .beginStartTag
        exact (hbegin.growName c).settles .start rfl
      · have hbegin : (((s.read c).become .data).emit (.beginData s.now.tagStart)).Tells x p
            (.text true) := Tells.emit (s := (s.read c).become .data) hread .beginBracket
        have hdata : ((((s.read c).become .data).emit (.beginData s.now.tagStart)).emit
            (.data ['<'])).Tells x p (.text false) := hbegin.emit (.data (List.cons_ne_nil _ _))
        exact
          Tells.settles (y := .text false) (hdata.emit (.data (List.cons_ne_nil _ _))) .start rfl

theorem endTagOpen_settles (h : s.Tells x p (.ending s.now.tagStart)) :
    (s.endTagOpen c).Settles x p := by
  have hread := h.read c
  unfold Step.endTagOpen
  dsimp only
  split
  · have hbegin : ((((s.read c).become .endTagName).forgetName).emit
        (.beginEndTag s.now.tagStart)).Tells x p (.tagName .stop true) :=
      Tells.emit (s := ((s.read c).become .endTagName).forgetName) hread .beginEndTag
    exact (hbegin.growName c).settles .stop rfl
  · have hrefused :
        ((s.read c).emit (.syntaxError .invalidEndTag s.now.tagStart)).Tells x p .none :=
      hread.emit .refuseEnd
    exact (hrefused.become .beforeData).settles .start rfl

theorem markupDeclarationOpen_settles (h : s.Tells x p (.opening s.now.tagStart)) :
    (s.markupDeclarationOpen c rest).Settles x p := by
  have hread := h.read c
  unfold Step.markupDeclarationOpen
  dsimp only
  split
  · have hbegin : ((((s.read c).readAhead ['-']).become .commentStart).emit
        (.beginComment s.now.tagStart)).Tells x p .comment :=
      Tells.emit (s := ((s.read c).readAhead ['-']).become .commentStart)
        (hread.readAhead ['-']) .beginComment
    exact hbegin.settles .start rfl
  · have hrefused : ((s.read c).emit (.syntaxError .markupDeclaration s.now.tagStart)).Tells x p
        .none := hread.emit .refuse
    exact (hrefused.become .beforeData).settles .start rfl

theorem commentText_settles (h : s.Tells x p .comment) (dashes : List Char) :
    (s.commentText dashes c).Settles x p := by
  unfold Step.commentText
  dsimp only
  split
  · exact Tells.settles (s := (s.emit (.commentData [c])).become .comment) (h.emit .commentData)
      .start rfl
  · have hdashes : (s.emit (.commentData dashes)).Tells x p .comment := h.emit .commentData
    exact Tells.settles (s := ((s.emit (.commentData dashes)).emit (.commentData [c])).become
      .comment) (hdashes.emit .commentData) .start rfl

theorem commentStart_settles (h : s.Tells x p .comment) : (s.commentStart c).Settles x p := by
  unfold Step.commentStart
  dsimp only
  split
  · exact ((h.read c).become .commentStartDash).settles .start rfl
  · split
    · exact (h.read c).closeComment
    · exact commentText_settles c (h.read c) []

theorem commentStartDash_settles (h : s.Tells x p .comment) :
    (s.commentStartDash c).Settles x p := by
  unfold Step.commentStartDash
  dsimp only
  split
  · exact ((h.read c).become .commentEnd).settles .start rfl
  · split
    · exact (h.read c).closeComment
    · have hdash : ((s.read c).emit (.commentData ['-'])).Tells x p .comment :=
        (h.read c).emit .commentData
      exact (hdash.become .comment).settles .start rfl

theorem comment_settles (h : s.Tells x p .comment) (hstate : s.now.state = .comment) :
    (s.comment c).Settles x p := by
  unfold Step.comment
  dsimp only
  split
  · exact ((h.read c).become .commentEndDash).settles .start rfl
  · have hdata : ((s.read c).emit (.commentData [c])).Tells x p .comment :=
      (h.read c).emit .commentData
    exact hdata.settles .start (by simp [Tokenizer.construct, emit, read, hstate])

theorem commentEndDash_settles (h : s.Tells x p .comment) :
    (s.commentEndDash c).Settles x p := by
  unfold Step.commentEndDash
  dsimp only
  split
  · exact ((h.read c).become .commentEnd).settles .start rfl
  · exact commentText_settles c (h.read c) ['-']

theorem commentEnd_settles (h : s.Tells x p .comment) : (s.commentEnd c).Settles x p := by
  unfold Step.commentEnd
  dsimp only
  split
  · exact (h.read c).closeComment
  · exact commentText_settles c (h.read c) ['-', '-']

theorem tagName_settles (h : s.Tells x p (.tagName .start false))
    (hstate : s.now.state = .tagName) : (s.tagName c).Settles x p := by
  have htag : (s.read c).Tells x p (.tag .start false) := (h.read c).silent .endName
  unfold Step.tagName
  dsimp only
  split
  · exact (htag.become .beforeAttributeName).settles .start rfl
  · split
    · exact (htag.become .selfClosingStartTag).settles .start rfl
    · split
      · exact htag.closeTag
      · exact ((h.read c).growName c).settles .start
          (by simp [Tokenizer.construct, growName, emit, read, hstate])

theorem endTagName_settles (h : s.Tells x p (.tagName .stop false))
    (hstate : s.now.state = .endTagName) : (s.endTagName c).Settles x p := by
  have htag : (s.read c).Tells x p (.tag .stop false) := (h.read c).silent .endName
  unfold Step.endTagName
  dsimp only
  split
  · exact (htag.become .beforeAttributeName).forgetName.settles .stop rfl
  · split
    · exact (htag.become .selfClosingStartTag).forgetName.settles .stop rfl
    · split
      · exact htag.closeTag
      · exact ((h.read c).growName c).settles .stop
          (by simp [Tokenizer.construct, growName, emit, read, hstate])

theorem attributeName_settles (h : s.Tells x p (.attribute k b))
    (hstate : s.now.state = .attributeName)
    (hblank : b = false ∨ isSpace c = false ∧ c ≠ '/' ∧ c ≠ '=' ∧ c ≠ '>') :
    (s.attributeName c).Settles x p := by
  unfold Step.attributeName
  split
  · rename_i hspace
    obtain rfl : b = false := hblank.resolve_right (by simp [hspace])
    exact ((h.become .afterAttributeName).read c).settles k rfl
  · split
    · rename_i hslash
      obtain rfl : b = false := hblank.resolve_right (by simp [hslash])
      exact ((h.emptyValue.read c).become .selfClosingStartTag).settles k rfl
    · split
      · rename_i hequals
        obtain rfl : b = false := hblank.resolve_right (by simp [hequals])
        exact ((h.become .beforeAttributeValue).read c).settles k rfl
      · split
        · rename_i hgreater
          obtain rfl : b = false := hblank.resolve_right (by simp [hgreater])
          exact (h.emptyValue.read c).closeTag
        · split
          · have hfault : (s.emitHere (.syntaxError (.characterInName c))).Tells x p
                (.attribute k b) := h.emit .fault
            exact Tells.settles (y := .attribute k false) ((hfault.read c).emit .growAttribute) k
              (by simp [Tokenizer.construct, emitHere, emit, read, hstate])
          · exact Tells.settles (y := .attribute k false) ((h.read c).emit .growAttribute) k
              (by simp [Tokenizer.construct, emit, read, hstate])

theorem beforeAttributeName_settles (h : s.Tells x p (.tag k false))
    (hstate : s.now.state = .beforeAttributeName) : (s.beforeAttributeName c).Settles x p := by
  unfold Step.beforeAttributeName
  split
  · exact (h.read c).settles k (by simp [Tokenizer.construct, read, hstate])
  · rename_i hspace
    split
    · exact ((h.become .selfClosingStartTag).read c).settles k rfl
    · rename_i hslash
      split
      · exact (h.read c).closeTag
      · rename_i hgreater
        split
        · have hfault : ((s.emitHere (.syntaxError .equalsBeforeName)).become
              .attributeName).Tells x p (.tag k false) := h.emit .fault
          have hbegin : (((s.emitHere (.syntaxError .equalsBeforeName)).become
              .attributeName).emitHere .beginAttribute).Tells x p (.attribute k true) :=
            hfault.emit .beginAttribute
          exact Tells.settles (y := .attribute k false) ((hbegin.read c).emit .growAttribute) k rfl
        · rename_i hequals
          have hbegin : ((s.become .attributeName).emitHere .beginAttribute).Tells x p
              (.attribute k true) := (h.become .attributeName).emit .beginAttribute
          exact attributeName_settles c hbegin rfl
            (.inr ⟨by simpa using hspace, hslash, hequals, hgreater⟩)

theorem afterAttributeName_settles (h : s.Tells x p (.attribute k false))
    (hstate : s.now.state = .afterAttributeName) : (s.afterAttributeName c).Settles x p := by
  unfold Step.afterAttributeName
  split
  · exact (h.read c).settles k (by simp [Tokenizer.construct, read, hstate])
  · split
    · exact ((h.emptyValue.read c).become .selfClosingStartTag).settles k rfl
    · split
      · exact ((h.read c).become .beforeAttributeValue).settles k rfl
      · split
        · exact (h.emptyValue.read c).closeTag
        · have hbegin : ((s.emptyValue.become .attributeName).emitHere .beginAttribute).Tells x p
              (.attribute k true) := (h.emptyValue.become .attributeName).emit .beginAttribute
          exact Tells.settles (y := .attribute k false) ((hbegin.read c).emit .growAttribute) k rfl

theorem valueText_settles (h : s.Tells x p (.value k)) (hstate : s.now.construct k = .value k) :
    (s.valueText c rest).Settles x p := by
  refine (h.valueText c rest).settles k ?_
  have hstates : (s.valueText c rest).now.state = s.now.state := valueText_state s c rest
  unfold Tokenizer.construct at hstate ⊢
  rw [hstates]
  split at hstate <;> simp_all

theorem beforeAttributeValue_settles (h : s.Tells x p (.attribute k false))
    (hstate : s.now.state = .beforeAttributeValue) :
    (s.beforeAttributeValue c rest).Settles x p := by
  have hbegin (state : State) (quoted : Bool) :
      ((s.become state).emitHere (.beginAttributeValue quoted)).Tells x p (.value k) :=
    (h.become state).emit .beginValue
  unfold Step.beforeAttributeValue
  split
  · exact (h.read c).settles k (by simp [Tokenizer.construct, read, hstate])
  · split
    · exact ((hbegin .attributeValueDoubleQuoted true).read c).settles k rfl
    · split
      · exact ((hbegin .attributeValueSingleQuoted true).read c).settles k rfl
      · split
        · exact (h.emptyValue.read c).closeTag
        · exact valueText_settles c rest (hbegin .attributeValueUnquoted false) rfl

theorem quotedValue_settles (h : s.Tells x p (.value k)) (hstate : s.now.construct k = .value k)
    (quote : Char) : (s.quotedValue quote c rest).Settles x p := by
  unfold Step.quotedValue
  split
  · have hfinish : ((s.read c).emitHere .finishAttributeValue).Tells x p (.tag k false) :=
      (h.read c).emit .finishValue
    exact (hfinish.become .afterAttributeValueQuoted).settles k rfl
  · exact valueText_settles c rest h hstate

theorem unquotedValue_settles (h : s.Tells x p (.value k))
    (hstate : s.now.construct k = .value k) : (s.unquotedValue c rest).Settles x p := by
  have hfinish : (s.emitHere .finishAttributeValue).Tells x p (.tag k false) :=
    h.emit .finishValue
  unfold Step.unquotedValue
  split
  · exact ((hfinish.read c).become .beforeAttributeName).settles k rfl
  · split
    · exact ((hfinish.read c).become .selfClosingStartTag).settles k rfl
    · split
      · exact (hfinish.read c).closeTag
      · exact valueText_settles c rest h hstate

theorem afterAttributeValueQuoted_settles (h : s.Tells x p (.tag k false)) :
    (s.afterAttributeValueQuoted c).Settles x p := by
  unfold Step.afterAttributeValueQuoted
  split
  · exact ((h.read c).become .beforeAttributeName).settles k rfl
  · split
    · exact ((h.read c).become .selfClosingStartTag).settles k rfl
    · split
      · exact (h.read c).closeTag
      · exact beforeAttributeName_settles c (h.become .beforeAttributeName) rfl

theorem selfClosingStartTag_settles (h : s.Tells x p (.tag k false)) :
    (s.selfClosingStartTag c).Settles x p := by
  unfold Step.selfClosingStartTag
  split
  · have hclosing : ((s.read c).emit .selfClosing).Tells x p (.tag k true) :=
      (h.read c).emit .selfClosing
    exact hclosing.closeTag
  · exact beforeAttributeName_settles c (h.become .beforeAttributeName) rfl

end

end Step

namespace Tokenizer

variable (t : Tokenizer) (k : TagKind)

theorem step_settles (c : Char) (rest : List Char) :
    (t.step c rest).Settles (t.construct k) t.position := by
  have h : Step.Tells (t.construct k) t.position (t.construct k) { now := t } := .refl
  generalize hx : t.construct k = x at h ⊢
  unfold step
  dsimp only
  split
  all_goals
    rename_i hstate
    simp only [construct, hstate] at hx
    subst hx
  · exact Step.beforeData_settles c rest h hstate
  · exact Step.data_settles c rest h hstate (.inl rfl)
  · exact Step.tagOpen_settles c h
  · exact Step.markupDeclarationOpen_settles c rest h
  · exact Step.commentStart_settles c h
  · exact Step.commentStartDash_settles c h
  · exact Step.comment_settles c h hstate
  · exact Step.commentEndDash_settles c h
  · exact Step.commentEnd_settles c h
  · exact Step.tagName_settles c h hstate
  · exact Step.endTagOpen_settles c h
  · exact Step.endTagName_settles c h hstate
  · exact Step.beforeAttributeName_settles c h hstate
  · exact Step.attributeName_settles c h hstate (.inl rfl)
  · exact Step.afterAttributeName_settles c h hstate
  · exact Step.beforeAttributeValue_settles c rest h hstate
  · exact Step.quotedValue_settles c rest h (by simp [construct, hstate]) _
  · exact Step.quotedValue_settles c rest h (by simp [construct, hstate]) _
  · exact Step.unquotedValue_settles c rest h (by simp [construct, hstate])
  · exact Step.afterAttributeValueQuoted_settles c h
  · exact Step.selfClosingStartTag_settles c h

/-- What is reported of a chunk leads from the construct under way before it to the one under
way after it. -/
theorem feed_moves (cs : List Char) :
    ∃ k', Moves (t.construct k) t.position ((t.feed cs).1.map (·.event))
      ((t.feed cs).2.construct k') (t.feed cs).2.position := by
  induction hlength : cs.length using Nat.strongRecOn generalizing t k cs with
  | _ length ih =>
    cases cs with
    | nil => exact ⟨k, .refl⟩
    | cons c cs =>
      obtain ⟨k', hstep⟩ := t.step_settles k c cs
      obtain ⟨k'', hrest⟩ := ih (cs.drop (t.step c cs).ahead).length
        (by rw [← hlength, List.length_drop, List.length_cons]; omega)
        (t.step c cs).now k' _ rfl
      refine ⟨k'', ?_⟩
      rw [feed_cons]
      simp only [List.map_append]
      exact hstep.trans hrest

theorem finishData_moves :
    Moves (t.construct k) t.position (t.finishData.1.map (·.event)) (t.finishData.2.construct k)
      t.finishData.2.position := by
  unfold finishData
  split
  · rename_i hdata
    have h : Moves (.text false) t.position [] (.text false) t.position := .refl
    have hmove := h.move (e := some (.finishData t.position)) .finishText
    simpa [construct, hdata, Step.emitHere, Step.emit, Step.become] using hmove
  · exact .refl

end Tokenizer

end HtmlTemplate.Html
