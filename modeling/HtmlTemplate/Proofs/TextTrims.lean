import HtmlTemplate.Proofs.Seams

/-! Texts that follow mustaches. Such a text loses its start to the marker of the mustache and to
nothing else, as whitespace control settles each body on its own. -/

namespace HtmlTemplate.Mustache

variable {ts : List Token} {ss : List Statement} {t : Trim}

def Unsettled (chained : Bool) (ss : List Statement) : Prop :=
  (chained = true → ∃ b, ss = [.block b]) ∧ ∀ c, .content c ∈ ss → c.value = c.written

theorem Unsettled.cons {s : Statement} (hs : ∀ c, s = .content c → c.value = c.written)
    (h : ∀ c, .content c ∈ ss → c.value = c.written) :
    ∀ c, .content c ∈ s :: ss → c.value = c.written := by
  intro c hc
  rcases List.mem_cons.mp hc with heq | hc
  · exact hs c heq.symm
  · exact h c hc

def Portion.EachUnsettled : Portion → Prop
  | .body ss => (∀ c, .content c ∈ ss → c.value = c.written) ∧ allEach Unsettled ss
  | .inverse _ _ q => sectionEach Unsettled q

theorem Spells.unsettled {portion : Portion} (h : Spells ts portion) : portion.EachUnsettled := by
  have hsection {body : List Statement} (params : List (List Char))
      (h : Portion.EachUnsettled (.body body)) :
      sectionEach Unsettled (some ⟨body, params, false⟩) :=
    ⟨⟨by rintro ⟨⟩, h.1⟩, h.2⟩
  have hcons {s : Statement} {ss : List Statement} (hne : ∀ c, s ≠ .content c)
      (hs : s.EachBody Unsettled) (h : Portion.EachUnsettled (.body ss)) :
      Portion.EachUnsettled (.body (s :: ss)) :=
    ⟨Unsettled.cons (fun c hc => absurd hc (hne c)) h.1, hs, h.2⟩
  induction h with
  | nil => exact ⟨fun c hc => absurd hc List.not_mem_nil, trivial⟩
  | content hsymbol hafter ih =>
    refine ⟨Unsettled.cons ?_ ih.1, trivial, ih.2⟩
    rintro _ ⟨⟩
    rfl
  | oneTag htag hs hafter ih =>
    cases hs with
    | mustache | decorator | comment | partialCall =>
      exact hcons (fun _ => Statement.noConfusion) trivial ih
  | block hopening hclosing hloc hbody hinverse hafter ihbody ihinverse ih =>
    exact hcons (fun _ => Statement.noConfusion) ⟨hsection _ ihbody, ihinverse⟩ ih
  | inverseBlock hopening hclosing hloc hbody hinverse hplain hafter ihbody ihinverse ih =>
    exact hcons (fun _ => Statement.noConfusion) ⟨ihinverse, hsection _ ihbody⟩ ih
  | decoratorBlock hopening hclosing hbody hafter ihbody ih =>
    exact hcons (fun _ => Statement.noConfusion) ⟨hsection _ ihbody, trivial⟩ ih
  | partialBlock hopening hclosing hbody hafter ihbody ih =>
    exact hcons (fun _ => Statement.noConfusion) (hsection [] ihbody) ih
  | noInverse closing => trivial
  | elseSection closing hsymbol hbody ih => exact hsection [] ih
  | chain closing htag hbody hinverse ihbody ihinverse =>
    refine ⟨⟨fun _ => ⟨_, rfl⟩, fun c hc => ?_⟩, ⟨hsection _ ihbody, ihinverse⟩, trivial⟩
    exact absurd (List.mem_singleton.mp hc) Statement.noConfusion

def Statement.Spares : Statement → Statement → Prop
  | .mustache m, .content c => c.value <+: applyIf m.strip.closing Text.trimStart c.written
  | _, _ => True

theorem trimEnd_isPrefix (t : Trim) (c : Content) : (c.trimEnd t).value <+: c.value := by
  cases t with
  | all => exact dropEndWhile_isPrefix _ _
  | line =>
    simp only [Content.trimEnd]
    split
    · exact List.prefix_refl _
    · exact dropEndWhile_isPrefix _ _

private theorem trimEnds_isPrefix (ts : List Trim) (c : Content) :
    (ts.foldl (fun c t => c.trimEnd t) c).value <+: c.value
      ∧ (ts.foldl (fun c t => c.trimEnd t) c).written = c.written := by
  induction ts generalizing c with
  | nil => exact ⟨List.prefix_refl _, rfl⟩
  | cons t ts ih =>
    obtain ⟨hvalue, hwritten⟩ := ih (c.trimEnd t)
    exact ⟨hvalue.trans (trimEnd_isPrefix t c), hwritten.trans (c.written_trimEnd t)⟩

private theorem chain_trimLast (h : ss.IsChain Statement.Spares) :
    (trimLast t ss).IsChain Statement.Spares := by
  fun_induction trimLast t ss with
  | case1 => exact .nil
  | case2 c => exact .singleton _
  | case3 s ss hne ih =>
    obtain ⟨hhead, hrest⟩ := List.isChain_cons.mp h
    refine List.isChain_cons.mpr ⟨fun s' hs' => ?_, ih hrest⟩
    obtain hs' | ⟨d, hd, rfl⟩ := head?_trimLast hs'
    · exact hhead s' hs'
    · cases s with
      | mustache m =>
        have hspares : d.value <+: applyIf m.strip.closing Text.trimStart d.written := hhead _ hd
        rw [← Content.written_trimEnd t d] at hspares
        exact (trimEnd_isPrefix t d).trans hspares
      | _ => trivial

private theorem reach_mustache (root keepLines : Bool) (before after : List Statement)
    (m : Interpolation) :
    (reach root keepLines before (.mustache m) after).after
      = if m.strip.closing then [.all] else [] := by
  simp [reach, Statement.outline?]

private theorem spares_trims (m : Interpolation) {d : Content} (ends : List Trim)
    (hwritten : d.value = d.written) :
    (Statement.mustache m).Spares (.content (ends.foldl (fun c t => c.trimEnd t)
      ((if m.strip.closing then [.all] else []).foldl (fun c t => c.trimStart t) d))) := by
  rw [Statement.Spares]
  generalize hd : ((if m.strip.closing then [.all] else []).foldl
    (fun (c : Content) (t : Trim) => c.trimStart t) d) = d'
  obtain ⟨hvalue, hkeeps⟩ := trimEnds_isPrefix ends d'
  rw [hkeeps]
  have htrimmed : d'.value = applyIf m.strip.closing Text.trimStart d'.written := by
    subst hd
    cases m.strip.closing with
    | false => exact hwritten
    | true => exact (congrArg Text.trimStart hwritten).trans rfl
  exact htrimmed ▸ hvalue

private theorem chain_settleAfter (root keepLines : Bool) (before : List Statement)
    (trims : List Trim)
    (text : Option Content) (h : ∀ c, .content c ∈ ss → c.value = c.written) :
    (settleAfter root keepLines before trims text ss).IsChain Statement.Spares := by
  induction ss generalizing before trims text with
  | nil => exact .nil
  | cons s after ih =>
    have hafter : ∀ c, .content c ∈ after → c.value = c.written :=
      fun c hc => h c (List.mem_cons_of_mem _ hc)
    cases s with
    | mustache m =>
      rw [settleAfter.eq_def]
      refine List.isChain_cons.mpr ⟨fun s' hs' => ?_, ih _ _ _ hafter⟩
      cases s' with
      | content d' =>
        obtain ⟨d, ends, hd, rfl⟩ := head?_settleAfter hs'
        have hwritten : d.value = d.written := hafter d (List.mem_of_mem_head? hd)
        rw [reach_mustache]
        exact spares_trims m ends hwritten
      | _ => trivial
    | _ =>
      rw [settleAfter.eq_def]
      refine List.isChain_cons.mpr ⟨fun s' hs' => ?_, ih _ _ _ hafter⟩
      trivial

private theorem settles_spares : Settles Unsettled (fun _ => List.IsChain Statement.Spares) where
  first {_ ss} t h := by
    unfold trimFirst
    split
    · exact List.isChain_cons.mpr ⟨fun s' _ => trivial, (List.isChain_cons.mp h).2⟩
    · exact h
  last t h := chain_trimLast h
  block h := List.isChain_cons.mpr ⟨fun s' _ => trivial, (List.isChain_cons.mp h).2⟩
  settle root keepLines h := by
    refine chain_settleAfter root keepLines [] [] none fun c hc => ?_
    obtain ⟨s, hs, hcontrol⟩ := List.mem_map.mp hc
    exact h.2 c ((control_eq_content keepLines).mp hcontrol ▸ hs)
  chained keepLines h := by
    obtain ⟨b, rfl⟩ := h.1 rfl
    exact .singleton _

/-- In the tree of a template a text that follows a mustache has lost its start to the marker of
the mustache only. -/
theorem parse_spares {text : List Char} {keepLines : Bool} {p : Program Statement}
    (h : parse text keepLines = .ok p) : p.EachBody fun _ => List.IsChain Statement.Spares := by
  obtain ⟨toks, rest, body, -, -, hspells, rfl⟩ := parse_spelled h
  obtain ⟨hbody, heach⟩ := hspells.unsettled
  exact Program.EachBody.control settles_spares keepLines ⟨⟨by rintro ⟨⟩, hbody⟩, heach⟩

end HtmlTemplate.Mustache
