import HtmlTemplate.Proofs.Moves
import HtmlTemplate.Proofs.Phase

/-! The machine and the markup stay in step: after every report the markup is in the phase
of what is under way, and everything lies where it has been read. -/

namespace HtmlTemplate.Html

open HtmlTemplate.Tree (Markup Ground Phase At)

/-- A `<` has been read that may turn out to begin a tag or a comment. -/
def State.opensTag : State → Bool
  | .tagOpen | .markupDeclarationOpen | .endTagOpen => true
  | _ => false

namespace Construct

/-- What is under way in the markup. -/
def phase : Construct → Phase
  | .none | .opening _ | .ending _ => .rest
  | .text _ => .text
  | .comment => .comment
  | .tagName .start _ => .startTag
  | .tagName .stop _ => .endTag
  | .tag .. => .tag
  | .attribute .. => .naming
  | .value _ => .valuing

def bracket? : Construct → Option Position
  | .opening l | .ending l => some l
  | _ => .none

end Construct

theorem Tokenizer.phase_construct (t : Tokenizer) (k : TagKind) :
    (t.construct k).phase = Phase.of t.state := by
  cases hstate : t.state <;> simp [construct, hstate, Construct.phase, Phase.of]

theorem Tokenizer.bracket?_construct (t : Tokenizer) (k : TagKind) :
    (t.construct k).bracket? = if t.state.opensTag then some t.tagStart else none := by
  cases hstate : t.state <;> simp [construct, hstate, Construct.bracket?, State.opensTag]

/-- The markup is in the phase of what is under way. What begins with the `<` read last
begins in the top frame. -/
structure InStep (g : Ground) (x : Construct) (p : Position) (m : Markup) : Prop where
  line : 1 ≤ p.line
  at_ : At g (g.src.offsetFor p) x.phase m
  bracket : ∀ l, x.bracket? = some l → g.floor m.stack.frames ≤ g.src.offsetFor l
    ∧ g.src.offsetFor l ≤ g.src.offsetFor p

section
variable {g : Ground} {x y : Construct} {p q : Position} {m n : Markup} {e : Event}
  {es : List Event}

theorem InStep.silent (h : InStep g x p m) (hm : Move x p none y q) : InStep g y q m := by
  cases hm with
  | wait hle =>
    have hoffset := g.src.offsetFor_mono h.line hle
    exact ⟨Position.one_le_line_of_le hle h.line, h.at_.later hoffset,
      fun l hl => ⟨(h.bracket l hl).1, Nat.le_trans (h.bracket l hl).2 hoffset⟩⟩
  | openTag =>
    refine ⟨h.line, h.at_, ?_⟩
    rintro l ⟨⟩
    exact ⟨h.at_.framed.floor_le, Nat.le_refl _⟩
  | turn => exact ⟨h.line, h.at_, h.bracket⟩
  | @endName k =>
    refine ⟨h.line, ?_, by rintro l ⟨⟩⟩
    cases k with
    | start => exact h.at_.tag_of_startTag
    | stop => exact h.at_.tag_of_endTag

/-- What is reported brings the markup to the phase of what is under way then. -/
theorem InStep.receive (h : InStep g x p m) (hm : Move x p (some e) y q)
    (hn : m.receive g.src e = .ok n) : InStep g y q n := by
  have hat := h.at_
  cases hm with
  | fault => simp [Markup.receive, Tree.fault] at hn
  | refuse => simp [Markup.receive, Tree.fault] at hn
  | refuseEnd => simp [Markup.receive, Tree.fault] at hn
  | beginText =>
    exact ⟨h.line, hat.beginData hat.framed.floor_le (Nat.le_refl _) hn, by rintro l ⟨⟩⟩
  | beginBracket =>
    obtain ⟨hfloor, hle⟩ := h.bracket _ rfl
    exact ⟨h.line, hat.beginData hfloor hle hn, by rintro l ⟨⟩⟩
  | data => exact ⟨h.line, hat.data hn, by rintro l ⟨⟩⟩
  | finishText => exact ⟨h.line, hat.finishData rfl hn, by rintro l ⟨⟩⟩
  | beginComment =>
    obtain ⟨hfloor, hle⟩ := h.bracket _ rfl
    exact ⟨h.line, hat.beginComment hfloor hle hn, by rintro l ⟨⟩⟩
  | commentData => exact ⟨h.line, hat.commentData hn, by rintro l ⟨⟩⟩
  | finishComment => exact ⟨h.line, hat.finishComment rfl hn, by rintro l ⟨⟩⟩
  | beginStartTag =>
    obtain ⟨hfloor, hle⟩ := h.bracket _ rfl
    exact ⟨h.line, hat.beginStartTag hfloor hle hn, by rintro l ⟨⟩⟩
  | beginEndTag =>
    obtain ⟨hfloor, hle⟩ := h.bracket _ rfl
    exact ⟨h.line, hat.beginEndTag hfloor hle hn, by rintro l ⟨⟩⟩
  | @growName k =>
    cases k with
    | start => exact ⟨h.line, hat.tagName_start hn, by rintro l ⟨⟩⟩
    | stop => exact ⟨h.line, hat.tagName_end hn, by rintro l ⟨⟩⟩
  | selfClosing => exact ⟨h.line, hat.selfClosing hn, by rintro l ⟨⟩⟩
  | finishTag => exact ⟨h.line, hat.finishTag rfl hn, by rintro l ⟨⟩⟩
  | beginAttribute => exact ⟨h.line, hat.beginAttribute rfl hn, by rintro l ⟨⟩⟩
  | growAttribute => exact ⟨h.line, hat.attributeName hn, by rintro l ⟨⟩⟩
  | beginValue => exact ⟨h.line, hat.beginAttributeValue rfl hn, by rintro l ⟨⟩⟩
  | valueText hle =>
    exact ⟨Position.one_le_line_of_le hle h.line,
      hat.attributeValue rfl rfl (g.src.offsetFor_mono h.line hle) hn, by rintro l ⟨⟩⟩
  | finishValue => exact ⟨h.line, hat.finishAttributeValue rfl hn, by rintro l ⟨⟩⟩

end

section
variable {x y : Construct} {p q : Position} {es : List Event} {src : Source} {m n : Markup}

/-- What each move keeps all reports keep, put into the markup one after the other. -/
theorem Moves.keeps {I : Construct → Position → Markup → Prop}
    (hsilent : ∀ {x y p q m}, I x p m → Move x p none y q → I y q m)
    (hreceive : ∀ {x y p q m n e}, I x p m → Move x p (some e) y q →
      m.receive src e = .ok n → I y q n)
    (h : Moves x p es y q) (hm : I x p m) (hn : es.foldlM (Markup.receive src) m = .ok n) :
    I y q n := by
  induction h generalizing n with
  | refl =>
    obtain rfl := pure_eq_ok.mp hn
    exact hm
  | @move _ _ _ _ _ _ e _ hmove ih =>
    cases e with
    | none => exact hsilent (ih hm (by simpa using hn)) hmove
    | some e =>
      simp only [Option.toList_some, List.foldlM_append, bind_eq_ok, List.foldlM_cons,
        List.foldlM_nil, pure_eq_ok, exists_eq_right] at hn
      obtain ⟨k, hk, hn⟩ := hn
      exact hreceive (ih hm hk) hmove hn

end

namespace Tokenizer

/-- The machine and the markup are in step. What begins with the `<` read last begins in
the top frame. -/
structure Sound (g : Ground) (t : Tokenizer) (m : Markup) : Prop where
  line : 1 ≤ t.position.line
  at_ : At g (g.src.offsetFor t.position) (Phase.of t.state) m
  opening : t.state.opensTag = true →
    g.floor m.stack.frames ≤ g.src.offsetFor t.tagStart
      ∧ g.src.offsetFor t.tagStart ≤ g.src.offsetFor t.position

variable {g : Ground} {t : Tokenizer} {m : Markup}

theorem sound_iff (k : TagKind) : t.Sound g m ↔ InStep g (t.construct k) t.position m := by
  constructor
  · intro h
    refine ⟨h.line, phase_construct t k ▸ h.at_, fun l hl => ?_⟩
    rw [bracket?_construct] at hl
    split at hl
    · cases hl
      exact h.opening ‹_›
    · cases hl
  · intro h
    refine ⟨h.line, phase_construct t k ▸ h.at_, fun ho => h.bracket _ ?_⟩
    rw [bracket?_construct, if_pos ho]

end Tokenizer

end HtmlTemplate.Html
