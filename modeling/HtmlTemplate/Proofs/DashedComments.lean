import HtmlTemplate.Proofs.Outlook

/-! Comments between dashes. Whatever does not hold the end of such a comment can be written in
one and is its value, dashes, tildes, braces and line breaks at either end of it included. -/

namespace HtmlTemplate.Mustache

def marker (marked : Bool) : List Char :=
  if marked then ['~'] else []

def dashedEnd (marked : Bool) : List Char :=
  ['-', '-'] ++ marker marked ++ ['}', '}']

theorem throughFirst_append {ends : List (List Char)} {e rest : List Char} (hrest : rest ≠ [])
    (hfound : ends.find? (·.isPrefixOf rest) = some e) {cs : List Char}
    (hbefore : ∀ tail, tail ≠ [] → tail <:+ cs → ∀ e ∈ ends, ¬ e <+: tail ++ rest) :
    throughFirst ends (cs ++ rest) = some (cs.length + e.length) := by
  induction cs with
  | nil =>
    obtain ⟨d, ds, rfl⟩ := List.exists_cons_of_ne_nil hrest
    rw [List.nil_append, throughFirst, hfound, List.length_nil, Nat.zero_add]
  | cons c cs ih =>
    have hnone : ends.find? (·.isPrefixOf (c :: cs ++ rest)) = none := by
      rw [List.find?_eq_none]
      intro e he hprefix
      exact hbefore (c :: cs) (List.cons_ne_nil c cs) List.suffix_rfl e he
        (List.isPrefixOf_iff_prefix.mp hprefix)
    have ih := ih fun tail hne htail => hbefore tail hne (htail.trans (List.suffix_cons c cs))
    rw [List.cons_append] at hnone ⊢
    rw [throughFirst, hnone]
    dsimp only
    rw [ih, List.length_cons, Option.map_some, Nat.add_right_comm]

theorem not_prefix_dashedEnd {marked : Bool} {tail more : List Char} (hne : tail ≠ [])
    (htail : ¬ dashedEnd marked <:+: tail) : ¬ dashedEnd marked <+: tail ++ '-' :: '-' :: more := by
  intro hends
  rcases List.prefix_or_prefix_of_prefix hends (List.prefix_append tail _) with
    hin | ⟨after, hafter⟩
  · exact htail hin.isInfix
  have hgoes : after <+: '-' :: '-' :: more :=
    (List.prefix_append_right_inj tail).mp (hafter.symm ▸ hends)
  have hnone : '-' ∉ marker marked ++ ['}', '}'] := by cases marked <;> decide
  cases after with
  | nil =>
    rw [← hafter, List.append_nil] at htail
    exact htail List.infix_rfl
  | cons d after =>
    obtain ⟨rfl, hgoes⟩ := List.cons_prefix_cons.mp hgoes
    obtain ⟨c, tail, rfl⟩ := List.exists_cons_of_ne_nil hne
    have hafter : tail ++ '-' :: after = '-' :: (marker marked ++ ['}', '}']) :=
      (List.cons.inj hafter).2
    cases tail with
    | nil =>
      rw [(List.cons.inj hafter).2] at hgoes
      cases marked <;> simp [marker] at hgoes
    | cons c' tail =>
      rw [← (List.cons.inj hafter).2] at hnone
      simp at hnone

def dashedComment (strip : Strip) (value : List Char) : List Char :=
  ['{', '{'] ++ marker strip.opening ++ ['!', '-', '-'] ++ value ++ dashedEnd strip.closing

variable {strip : Strip} {value : List Char}

theorem commentStrip_dashedComment (strip : Strip) (value : List Char) :
    commentStrip (dashedComment strip value) = strip := by
  obtain ⟨opening, closing⟩ := strip
  cases opening <;> cases closing <;>
    simp [commentStrip, dashedComment, dashedEnd, marker]

private theorem dropEndIf_append (c : Char) (cs : List Char) : dropEndIf c (cs ++ [c]) = cs := by
  simp [dropEndIf, Text.dropIf]

private theorem commentValue_dashedComment (strip : Strip) (value : List Char) :
    commentValue (dashedComment strip value) = value := by
  obtain ⟨opening, closing⟩ := strip
  have hstart : Text.dropIf '-' (Text.dropIf '-' (Text.dropIf '!' (Text.dropIf '~'
      ((dashedComment ⟨opening, closing⟩ value).drop 2)))) = value ++ dashedEnd closing := by
    cases opening <;> rfl
  have hbraces : (value ++ dashedEnd closing).take ((value ++ dashedEnd closing).length - 2)
      = value ++ ['-', '-'] ++ marker closing := by
    have hend : value ++ dashedEnd closing
        = value ++ ['-', '-'] ++ marker closing ++ ['}', '}'] := by
      simp only [dashedEnd, List.append_assoc]
    have htwo : (['}', '}'] : List Char).length = 2 := rfl
    rw [hend, List.length_append, htwo, Nat.add_sub_cancel, List.take_left]
  have hmarker : dropEndIf '~' (value ++ ['-', '-'] ++ marker closing) = value ++ ['-', '-'] := by
    cases closing with
    | false => simp [marker, dropEndIf, Text.dropIf]
    | true => exact dropEndIf_append '~' _
  unfold commentValue
  dsimp only
  rw [hstart, hbraces, hmarker, ← List.singleton_append, ← List.append_assoc, dropEndIf_append,
    dropEndIf_append]

private theorem commentLength?_dashed (hvalue : ∀ marked, ¬ dashedEnd marked <:+: value)
    (closing : Bool)
    (rest : List Char) :
    commentLength? ('!' :: (['-', '-'] ++ value ++ dashedEnd closing ++ rest))
      = some (value.length + (dashedEnd closing).length + 3) := by
  have hfound : [dashedEnd false, dashedEnd true].find? (·.isPrefixOf (dashedEnd closing ++ rest))
      = some (dashedEnd closing) := by
    cases closing <;> simp [dashedEnd, marker, List.isPrefixOf]
  have hbefore : ∀ tail, tail ≠ [] → tail <:+ value → ∀ e ∈ [dashedEnd false, dashedEnd true],
      ¬ e <+: tail ++ (dashedEnd closing ++ rest) := by
    intro tail hne htail e he
    obtain ⟨marked, rfl⟩ : ∃ marked, e = dashedEnd marked := by
      simpa [or_comm] using he
    exact not_prefix_dashedEnd hne fun hinside => hvalue marked (hinside.trans htail.isInfix)
  have hthrough := throughFirst_append (by simp [dashedEnd]) hfound hbefore
  rw [← List.append_assoc] at hthrough
  show (throughFirst [dashedEnd false, dashedEnd true] (value ++ dashedEnd closing ++ rest)).map
    (· + 3) = _
  rw [hthrough, Option.map_some]

private theorem openLexeme_comment (opening : Bool) {body : List Char} {n : Nat}
    (h : commentLength? ('!' :: body) = some n) :
    openLexeme ('{' :: '{' :: (marker opening ++ '!' :: body))
      = .ok { symbol := .comment (('{' :: '{' :: (marker opening ++ '!' :: body)).take
                (2 + (marker opening).length + n))
              length := 2 + (marker opening).length + n, after := .text } := by
  unfold openLexeme
  cases opening <;> simp [marker, h]

private theorem scans_dashedComment {p : Position} {rest : List Char}
    (hvalue : ∀ marked, ¬ dashedEnd marked <:+: value) (strip : Strip) :
    Scans .text p (dashedComment strip value)
      [tokenAt p (dashedComment strip value) (.comment (dashedComment strip value))]
      .text rest := by
  have hopen := openLexeme_comment strip.opening
    (commentLength?_dashed hvalue strip.closing rest)
  have htext : '{' :: '{' :: (marker strip.opening
      ++ '!' :: (['-', '-'] ++ value ++ dashedEnd strip.closing ++ rest))
        = dashedComment strip value ++ rest := by
    simp [dashedComment]
  have hlength : 2 + (marker strip.opening).length
      + (value.length + (dashedEnd strip.closing).length + 3)
        = (dashedComment strip value).length := by
    simp only [dashedComment, List.length_append, List.length_cons, List.length_nil]
    omega
  rw [htext, hlength, List.take_left] at hopen
  exact Scans.one (List.cons_ne_nil _ _) rfl hopen rfl

/-- A comment between dashes is read as one statement, with the text between the dashes as it
stands. -/
theorem parse_dashedComment (strip : Strip) (keepLines : Bool)
    (hend : ¬ ['-', '-', '}', '}'] <:+: value) (hmarked : ¬ ['-', '-', '~', '}', '}'] <:+: value) :
    parse (dashedComment strip value) keepLines
      = .ok { body := [.comment ⟨value, strip,
          ⟨.first, Position.first.after (dashedComment strip value)⟩⟩] } := by
  have hvalue : ∀ marked, ¬ dashedEnd marked <:+: value := Bool.forall_bool.mpr ⟨hend, hmarked⟩
  have hscans : Scans .text .first (dashedComment strip value) _ .text [] :=
    scans_dashedComment hvalue strip
  rw [Scans, List.append_nil] at hscans
  refine Draft.parse_lone hscans rfl ?_ rfl
  rw [List.singleton_append, statement]
  dsimp only [tokenAt]
  rw [commentValue_dashedComment, commentStrip_dashedComment]
  exact ⟨_, rfl⟩

/-- A value that begins like a marker and ends like an end, with braces and a line break. -/
theorem parse_dashedComment_dashes :
    let value := ['~', '-', '}', '}', '\n', '-', '-', '~', '}', '-']
    ¬ ['-', '-', '}', '}'] <:+: value ∧ ¬ ['-', '-', '~', '}', '}'] <:+: value
      ∧ parse (dashedComment ⟨true, false⟩ value) false
        = .ok { body := [.comment ⟨value, ⟨true, false⟩, ⟨⟨1, 0⟩, ⟨2, 9⟩⟩⟩] } := by
  intro value
  have hend : ¬ ['-', '-', '}', '}'] <:+: value := by decide
  have hmarked : ¬ ['-', '-', '~', '}', '}'] <:+: value := by decide
  have hstop : Position.first.after (dashedComment ⟨true, false⟩ value) = ⟨2, 9⟩ := by decide
  have hparse := parse_dashedComment ⟨true, false⟩ false hend hmarked
  rw [hstop] at hparse
  exact ⟨hend, hmarked, hparse⟩

end HtmlTemplate.Mustache
