import HtmlTemplate.Proofs.Evaluation
import HtmlTemplate.Proofs.ValueRuns

/-! Which values the attributes of a template have. The mustaches that begin in an attribute are
those in its value, so that an attribute which has any and is quoted has parts between its
quotes. -/

namespace HtmlTemplate

namespace Source

variable {src : Source} {span : Span}

theorem Braced.lt (h : src.Braced span) (hle : span.start ≤ span.stop) :
    span.start < span.stop := by
  refine Nat.lt_of_le_of_ne hle fun heq => ?_
  obtain ⟨inner, hslice⟩ := h
  obtain ⟨start, stop⟩ := span
  obtain rfl : start = stop := heq
  rw [Tree.slice_empty] at hslice
  cases hslice

theorem Braced.not_quoted (h : src.Braced span) : ¬ src.Quoted span := by
  rintro ⟨q, hq, inner', hslice'⟩
  obtain ⟨inner, hslice⟩ := h
  obtain rfl : '{' = q := (List.cons.inj (hslice.symm.trans hslice')).1
  cases hq

end Source

open HtmlTemplate.Tree.Assembly (Arrives)

variable {text : List Char} {options : Options} {t : Tree.Template}
  {program : Mustache.Program Mustache.Statement}

/-- A mustache that is read in a template. -/
def Interpolates (text : List Char) (options : Options) (d : Tree.Dynamic) : Prop :=
  ∃ m a, Passes text options (.reads (.mustache m) a)
    ∧ Tree.dynamic ⟨text, options.moduleName⟩ m = .ok d

/-- One is read that begins in an attribute. -/
def Receives (text : List Char) (options : Options) (a : Tree.Attribute) : Prop :=
  ∃ d, Interpolates text options d ∧ a.span.start ≤ d.span.start ∧ d.span.start < a.span.stop

theorem arrives_initial (D : Tree.Dynamic → Prop)
    (h : Mustache.parse text options.keepLines = .ok program) :
    ∃ ts, Mustache.scan text = .ok ts
      ∧ Mustache.allJoined ⟨text, options.moduleName⟩ program.body
      ∧ Arrives ⟨text, options.moduleName⟩ ts D program.body (.initial options.mode)
        program.body := by
  obtain ⟨ts, hscan, -, hlaid⟩ := laid_initial h
  obtain ⟨ts', hscan', hthreaded⟩ := Mustache.parse_threaded h
  obtain rfl := Except.ok.inj (hscan'.symm.trans hscan)
  have hjoined := Mustache.parse_joined options.moduleName h
  obtain ⟨body, params, chained⟩ := program
  have hidle : (Tree.Assembly.initial options.mode).Idle := ⟨rfl, rfl, rfl⟩
  exact ⟨ts', hscan, hjoined, hlaid, .whole, .inl ⟨.first, Nat.le_refl 1, hthreaded, hidle.forms⟩⟩

theorem elements_formed (h : preprocess text options = .ok t) :
    ∃ ts, Mustache.scan text = .ok ts ∧ ∀ e ∈ t.elements,
      Tree.AllFormed ⟨text, options.moduleName⟩ ts (Interpolates text options) e.attributes := by
  obtain ⟨program, -, -, hparse, -⟩ := preprocess_ok h
  obtain ⟨ts, hscan, hjoined, hinitial⟩ := arrives_initial (Interpolates text options) hparse
  have hD (m : Mustache.Interpolation) (c : Tree.Assembly) (d : Tree.Dynamic)
      (hm : Tree.Assembly.Passes ⟨text, options.moduleName⟩ (.initial options.mode) program.body
        (.reads (.mustache m) c)) (hd : Tree.dynamic ⟨text, options.moduleName⟩ m = .ok d) :
      Interpolates text options d := ⟨m, c, .statements hparse hm, hd⟩
  refine ⟨ts, hscan, fun e he a ha => ?_⟩
  obtain ⟨program', tag, kept, hparse', htag, hattributes⟩ := startTag_of_mem_elements h he
  obtain rfl := Except.ok.inj (hparse'.symm.trans hparse)
  obtain ⟨s, b, c, hreads, hc, htag⟩ := reads_of_mem_startTags h hparse htag
  obtain ⟨rest, hb⟩ := hreads.arrives hinitial hscan hjoined hD
  have hformed := (hb.statement hscan hjoined (fun m d hm => hD m b d (hm ▸ hreads)) hc).2 tag htag
  exact hformed a (List.mem_of_mem_take (hattributes ▸ ha))

theorem Interpolates.stands {d : Tree.Dynamic} (h : Interpolates text options d) :
    Source.Braced ⟨text, options.moduleName⟩ d.span ∧ d.span.start ≤ d.span.stop
      ∧ ∃ ts, Mustache.scan text = .ok ts ∧ ∃ u ∈ ts, u.symbol.opensMustache = true
        ∧ Source.offsetFor ⟨text, options.moduleName⟩ u.loc.start = d.span.start := by
  obtain ⟨m, a, hm, hd⟩ := h
  cases hm with
  | statements hparse hreads =>
    obtain ⟨ts, hscan, hjoined, hinitial⟩ := arrives_initial (fun _ => True) hparse
    obtain ⟨rest, ha⟩ := hreads.arrives hinitial hscan hjoined fun _ _ _ _ _ => trivial
    obtain ⟨hline, hle, u, hu, hopens, hstart⟩ := ha.mustache
    obtain ⟨linked, ⟨hbraced, -⟩, -⟩ :=
      ha.tail.exact (Mustache.parse_exact options.moduleName hparse)
    rw [← Tree.dynamic_span hd] at hbraced
    have hspan := (Tree.dynamic_span hd).trans (Source.spanFor_eq _ hline hle)
    refine ⟨hbraced, ?_, ts, hscan, u, hu, hopens, ?_⟩
    · rw [hspan]
      exact Source.offsetFor_mono _ hline hle
    · rw [hspan, hstart]

namespace Interpolates

variable {a : Tree.Attribute} {d : Tree.Dynamic}

theorem received (h : Interpolates text options d) (hstart : a.span.start ≤ d.span.start)
    (hstop : d.span.stop ≤ a.span.stop) : Receives text options a := by
  obtain ⟨hbraced, hle, -⟩ := h.stands
  exact ⟨d, h, hstart, (hbraced.lt hle).trans_le hstop⟩

theorem not_quoted (h : Interpolates text options d) :
    ¬ Source.Quoted ⟨text, options.moduleName⟩ d.span :=
  h.stands.1.not_quoted

end Interpolates

private theorem not_receives {ts : List Mustache.Token} {a : Tree.Attribute}
    (hscan : Mustache.scan text = .ok ts)
    (hunbroken : Unbroken ⟨text, options.moduleName⟩ ts a.span.start a.span.stop) :
    ¬ Receives text options a := by
  rintro ⟨d, hd, hstart, hstop⟩
  obtain ⟨-, -, ts', hscan', u, hu, hopens, hu'⟩ := hd.stands
  obtain rfl := Except.ok.inj (hscan'.symm.trans hscan)
  rcases hunbroken u hu hopens with hbefore | hafter <;> omega

/-- Values of attributes. One with both quotes and mustaches has parts: text that is not empty and
mustaches, in the order in which they stand between the quotes, and no two texts follow each
other. Without quotes a mustache is all of the value, and without mustaches the value is plain
text. -/
theorem attribute_values (h : preprocess text options = .ok t) :
    ∀ e ∈ t.elements, ∀ a ∈ e.attributes,
      (∀ parts span, a.value = .concat parts span →
        Tree.WellParted ⟨text, options.moduleName⟩ (Interpolates text options) parts span)
      ∧ ((∃ parts span, a.value = .concat parts span) ↔
        Source.Quoted ⟨text, options.moduleName⟩ a.value.span ∧ Receives text options a)
      ∧ ((∃ d, a.value = .dynamic d ∧ Interpolates text options d) ↔
        ¬ Source.Quoted ⟨text, options.moduleName⟩ a.value.span ∧ Receives text options a)
      ∧ ((∃ chars, a.value = .text chars) ↔ ¬ Receives text options a) := by
  obtain ⟨ts, hscan, hformed⟩ := elements_formed h
  intro e he a ha
  have hvalue := hformed e he a ha
  cases hcase : a.value with
  | text chars =>
    rw [hcase] at hvalue
    have hnone : ¬ Receives text options a := not_receives hscan hvalue
    simp [hnone]
  | dynamic d =>
    rw [hcase] at hvalue
    obtain ⟨hd, hstart, hstop⟩ := hvalue
    have hreceives : Receives text options a := hd.received hstart hstop
    simp [Tree.AttributeValue.span, hd, hreceives, hd.not_quoted]
  | concat parts span =>
    rw [hcase] at hvalue
    obtain ⟨hparted, hstart, hstop⟩ := hvalue
    obtain ⟨d, hd⟩ := hparted.mixed
    obtain ⟨hfirst, -, hlast⟩ := hparted.parted.within _ hd
    have hreceives : Receives text options a :=
      (hparted.sources d hd).received (hstart.trans ((Nat.le_succ _).trans hfirst))
        (hlast.trans (hstop ▸ Nat.sub_le _ _))
    simp only [Tree.AttributeValue.concat.injEq, Tree.AttributeValue.span, hparted.quoted,
      hreceives, reduceCtorEq, false_and, exists_false, not_true_eq_false, and_self, iff_self,
      and_true]
    refine ⟨?_, ⟨fun _ => trivial, fun _ => ⟨parts, span, rfl, rfl⟩⟩⟩
    rintro _ _ ⟨rfl, rfl⟩
    exact hparted

/-- Values of all three kinds. -/
def mixedValues : List Char :=
  "<a b=\"x{{y}}\" c={{z}} d='w'></a>".toList

theorem attribute_values_mixed :
    ∃ t, preprocess mixedValues {} = .ok t ∧ ∃ e ∈ t.elements, ∃ a b c, e.attributes = [a, b, c]
      ∧ (∃ parts, a.value = .concat parts ⟨5, 13⟩ ∧ Receives mixedValues {} a
        ∧ Tree.WellParted ⟨mixedValues, none⟩ (Interpolates mixedValues {}) parts ⟨5, 13⟩)
      ∧ (∃ d, b.value = .dynamic d ∧ d.span = ⟨16, 21⟩ ∧ Receives mixedValues {} b
        ∧ Interpolates mixedValues {} d)
      ∧ (∃ chars, c.value = .text chars) ∧ ¬ Receives mixedValues {} c := by
  have hscan : Mustache.scan mixedValues = .ok
      [.onLine (.content "<a b=\"x".toList) 0 7, .onLine (.opener .escaped) 7 9,
        .onLine (.name ['y'] false) 9 10, .onLine .close 10 12,
        .onLine (.content "\" c=".toList) 12 16, .onLine (.opener .escaped) 16 18,
        .onLine (.name ['z'] false) 18 19, .onLine .close 19 21,
        .onLine (.content " d='w'></a>".toList) 21 32, .onLine .endOfInput 32 32] := by
    decide +kernel
  have hparse := Mustache.parse_of_tokens false hscan (by cbv)
  have hok : (preprocess mixedValues {}).toOption.any (fun t => t.elements.any fun e =>
      (e.attributes.map fun a => (a.value.text?, a.value.span))
        == [(none, ⟨5, 13⟩), (none, ⟨16, 21⟩), (some ['w'], ⟨24, 27⟩)]) = true := by
    rw [preprocess_of_parse {} hparse]
    decide +kernel
  obtain ⟨t, h, hok⟩ := exists_of_any hok
  obtain ⟨e, he, hok⟩ := List.any_eq_true.mp hok
  obtain ⟨a, b, c, hattributes⟩ : ∃ a b c, e.attributes = [a, b, c] :=
    List.length_eq_three.mp (by simpa using congrArg List.length (eq_of_beq hok))
  rw [hattributes] at hok
  obtain ⟨⟨ha, haspan⟩, ⟨hb, hbspan⟩, hc, hcspan⟩ : ((a.value.text? = none
      ∧ a.value.span = ⟨5, 13⟩) ∧ (b.value.text? = none ∧ b.value.span = ⟨16, 21⟩)
      ∧ c.value.text? = some ['w'] ∧ c.value.span = ⟨24, 27⟩) := by
    simpa [and_assoc] using eq_of_beq hok
  have hvalues := attribute_values h e he
  rw [hattributes] at hvalues
  obtain ⟨haparts, haconcat, -, hatext⟩ := hvalues a (by simp)
  obtain ⟨-, -, hbdynamic, hbtext⟩ := hvalues b (by simp)
  obtain ⟨-, -, -, hctext⟩ := hvalues c (by simp)
  have hareceives : Receives mixedValues {} a := by
    by_contra hnone
    obtain ⟨chars, hchars⟩ := hatext.mpr hnone
    simp [hchars, Tree.AttributeValue.text?] at ha
  have hbreceives : Receives mixedValues {} b := by
    by_contra hnone
    obtain ⟨chars, hchars⟩ := hbtext.mpr hnone
    simp [hchars, Tree.AttributeValue.text?] at hb
  have haquoted : Source.Quoted ⟨mixedValues, none⟩ a.value.span := by
    rw [haspan]
    exact ⟨'"', rfl, ['x', '{', '{', 'y', '}', '}'], by decide⟩
  have hbquoted : ¬ Source.Quoted ⟨mixedValues, none⟩ b.value.span := by
    rw [hbspan]
    exact Source.Braced.not_quoted ⟨['z'], by decide⟩
  obtain ⟨parts, span, hparts⟩ := haconcat.mpr ⟨haquoted, hareceives⟩
  obtain ⟨d, hdynamic, hd⟩ := hbdynamic.mpr ⟨hbquoted, hbreceives⟩
  rw [hparts] at haspan
  obtain rfl : span = ⟨5, 13⟩ := haspan
  rw [hdynamic] at hbspan
  have hchars : ∃ chars, c.value = .text chars := by
    cases hcase : c.value with
    | text chars => exact ⟨chars, rfl⟩
    | _ => simp [hcase, Tree.AttributeValue.text?] at hc
  exact ⟨t, h, e, he, a, b, c, hattributes, ⟨parts, hparts, hareceives, haparts _ _ hparts⟩,
    ⟨d, hdynamic, hbspan, hbreceives, hd⟩, hchars, hctext.mp hchars⟩

end HtmlTemplate
