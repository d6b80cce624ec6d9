import HtmlTemplate.Proofs.AttributeRuns
import HtmlTemplate.Proofs.Evaluation

/-! The characters of the names of attributes. A quote or a `<` is at fault in a name, and so is a
`=` in front of one, wherever the name begins but in one place: after a name that has ended without
a value, the first character of the next is taken as it is unless it ends names. -/

namespace HtmlTemplate

open Html (Faultless State Step Tokenizer endsName isFaultyInName)

namespace Html

variable {t : Tokenizer} {c : Char} {rest : List Char}

theorem Tokenizer.step_attributeName (hfaults : Faultless (t.step c rest).events)
    (hstate : (t.step c rest).now.state = .attributeName) :
    endsName c = false ∧ (isFaultyInName c = true → t.state = .afterAttributeName) := by
  have hstep := t.step_attributeStep c rest hfaults
  generalize t.step c rest = s at *
  have hnot (hapart : s.now.state.isInAttribute = false) : False := by
    rw [hstate] at hapart
    cases hapart
  cases hstep with
  | apart _ hapart | endsBare _ _ hapart | endsQuoted _ _ hapart | endsUnquoted _ _ hapart =>
    exact (hnot hapart).elim
  | begins _ _ hends hfaulty | grows _ _ hends hfaulty =>
    exact ⟨hends, fun hfault => by simp [hfaulty] at hfault⟩
  | beginsNext hbefore _ hends => exact ⟨hends, fun _ => hbefore⟩
  | waits _ _ hne => exact absurd hstate hne
  | beginsQuoted _ hvalue =>
    rw [hstate] at hvalue
    cases hvalue
  | beginsUnquoted _ hvalue =>
    rw [hstate] at hvalue
    cases hvalue
  | reads hbefore hvalue =>
    rw [← hvalue, hstate] at hbefore
    cases hbefore

theorem Tokenizer.step_afterAttributeName (ht : t.state = .afterAttributeName)
    (hends : endsName c = false) :
    Faultless (t.step c rest).events ∧ (t.step c rest).now.state = .attributeName := by
  obtain ⟨mode, state, position, tagStart, tagName⟩ := t
  obtain rfl : state = .afterAttributeName := ht
  simp only [endsName, Bool.or_eq_false_iff, beq_eq_false_iff_ne] at hends
  obtain ⟨⟨⟨hspace, hslash⟩, hequals⟩, hgreater⟩ := hends
  show Faultless (Step.afterAttributeName _ c).events
    ∧ (Step.afterAttributeName _ c).now.state = .attributeName
  simp [Step.afterAttributeName, hspace, hslash, hequals, hgreater, Faultless, Step.events,
    Step.emptyValue, Step.emitHere, Step.emit, Step.become, Step.read, Event.isFault]

end Html

/-- The name of each attribute of a template begins where the attribute does. None of its
characters ends names, so that it does not begin with `=`, and but for the first one none is at
fault in names. The first is only if the attribute before has no value and ends right there. A
machine takes a character at fault into a name in this one way, and there it takes any. -/
theorem attribute_names_checked {text : List Char} {options : Options} {t : Tree.Template}
    (h : preprocess text options = .ok t) :
    (∀ e ∈ t.elements, ∀ before a after, e.attributes = before ++ a :: after →
      ∃ c cs, a.name = c :: cs
        ∧ Source.Begins ⟨text, options.moduleName⟩ a.span.start c
        ∧ (∀ d ∈ c :: cs, endsName d = false) ∧ (∀ d ∈ cs, isFaultyInName d = false)
        ∧ (isFaultyInName c = true →
          ∃ b, before.getLast? = some b ∧ b.IsBare ∧ b.span.stop = a.span.start))
      ∧ ∀ (k : Tokenizer) (c : Char) (rest : List Char),
        (Faultless (k.step c rest).events ∧ (k.step c rest).now.state = .attributeName →
          endsName c = false ∧ (isFaultyInName c = true → k.state = .afterAttributeName))
        ∧ (k.state = .afterAttributeName → endsName c = false →
          Faultless (k.step c rest).events ∧ (k.step c rest).now.state = .attributeName) := by
  refine ⟨fun e he before a after heq => ?_, fun k c rest => ⟨fun hk => ?_, fun hk hends => ?_⟩⟩
  · have hfits := elements_fit (E := fun _ _ => True) h
      (fun _ _ _ _ _ _ _ _ _ _ _ _ => trivial) e he before a after heq
    obtain ⟨hname, -⟩ := hfits
    generalize hcs : a.name = name at hname
    cases hname with
    | mk hbegins hends hmore hbare =>
      refine ⟨_, _, rfl, hbegins, List.forall_mem_cons.mpr ⟨hends, fun d hd => (hmore d hd).1⟩,
        fun d hd => (hmore d hd).2, hbare⟩
  · exact Tokenizer.step_attributeName hk.1 hk.2
  · exact Tokenizer.step_afterAttributeName hk hends

def quoteInName : List Char :=
  "<a b \"c></a>".toList

theorem attribute_names_checked_quote :
    ∃ t, preprocess quoteInName {} = .ok t
      ∧ ∃ e ∈ t.elements, ∃ b a, e.attributes = [b] ++ a :: [] ∧ a.name = ['"', 'c']
        ∧ Source.Begins ⟨quoteInName, none⟩ a.span.start '"' ∧ isFaultyInName '"' = true
        ∧ b.IsBare ∧ b.span.stop = a.span.start := by
  have hscan : Mustache.scan quoteInName = .ok
      [.onLine (.content quoteInName) 0 12, .onLine .endOfInput 12 12] := by decide +kernel
  have hparse := Mustache.parse_of_tokens false hscan (by cbv)
  have hok : (preprocess quoteInName {}).toOption.any (fun t => t.elements.any fun e =>
      e.attributes.map (·.name) == [['b'], ['"', 'c']]) = true := by
    rw [preprocess_of_parse {} hparse]
    decide +kernel
  obtain ⟨t, h, hok⟩ := exists_of_any hok
  obtain ⟨e, he, hnames⟩ := List.any_eq_true.mp hok
  obtain ⟨b, a, hattributes, hname⟩ : ∃ b a, e.attributes = [b] ++ a :: []
      ∧ a.name = ['"', 'c'] := by
    have hnames := eq_of_beq hnames
    rcases hcase : e.attributes with _ | ⟨b, _ | ⟨a, _ | ⟨_, _⟩⟩⟩ <;> simp [hcase] at hnames
    exact ⟨b, a, rfl, hnames.2⟩
  obtain ⟨c, cs, hcs, hbegins, -, -, hbare⟩ :=
    (attribute_names_checked h).1 e he [b] a [] hattributes
  obtain ⟨rfl, -⟩ := List.cons.inj (hname.symm.trans hcs)
  obtain ⟨b', hb', hbare, hstop⟩ := hbare rfl
  obtain rfl := Option.some.inj hb'
  exact ⟨t, h, e, he, b, a, hattributes, hname, hbegins, rfl, hbare, hstop⟩

end HtmlTemplate
