import HtmlTemplate.Proofs.Quotations
import HtmlTemplate.Proofs.RoundTrip

/-! Literals that are pasted as they are shown. A template that is the shown text between braces
prints the literal again, except for strings with backslashes or with characters that cannot be
seen: these are shown with escapes, and the reader of strings knows none but the backslash before
a quote. -/

namespace HtmlTemplate

open Mustache (Scans braced quoted printed innerLoc backslashed)

namespace Text

private theorem quote_not_mem_hexDigits (n : Nat) : '"' ∉ hexDigits n := by
  induction n using Nat.strongRecOn with
  | _ n ih =>
    rw [hexDigits, Nat.toDigits_eq_if (by decide)]
    split
    · simp
    · rename_i hn
      rw [List.mem_append, not_or]
      exact ⟨ih (n / 16) (Nat.div_lt_self (by omega) (by decide)), by simp⟩

def readBack (c : Char) : List Char :=
  if c = '"' then ['"'] else quoteChar c

private theorem quote_not_mem_quoteChar {c : Char} (hc : c ≠ '"') : '"' ∉ quoteChar c := by
  unfold quoteChar
  split_ifs
  all_goals simp [hc.symm, quote_not_mem_hexDigits]

private theorem quoteChar_eq (c : Char) : quoteChar c = backslashed (· == '"') (readBack c) := by
  unfold readBack
  split
  · rename_i hc
    rw [hc]
    rfl
  · rename_i hc
    rw [Mustache.backslashed_plain]
    exact fun d hd => beq_false_of_ne fun heq => quote_not_mem_quoteChar hc (heq ▸ hd)

theorem quote_eq (cs : List Char) : quote cs = quoted '"' (cs.flatMap readBack) := by
  have hshown : backslashed (· == '"') (cs.flatMap readBack) = cs.flatMap quoteChar := by
    rw [backslashed, List.flatMap_assoc]
    exact congrArg (cs.flatMap ·) (funext fun c => (quoteChar_eq c).symm)
  rw [quote, quoted, hshown]
  rfl

theorem readBack_ne_nil (c : Char) : readBack c ≠ [] := by
  unfold readBack quoteChar
  split_ifs <;> simp

private theorem readBack_eq_iff (c : Char) : readBack c = [c] ↔ c ≠ '\\' ∧ isVisible c = true := by
  unfold readBack quoteChar
  split_ifs with hquote hzero htab hreturn hline hback hvisible
  · rw [hquote]
    exact iff_of_true rfl (by decide +kernel)
  · rw [hzero]
    exact iff_of_false (by simp) (by decide +kernel)
  · rw [htab]
    exact iff_of_false (by simp) (by decide +kernel)
  · rw [hreturn]
    exact iff_of_false (by simp) (by decide +kernel)
  · rw [hline]
    exact iff_of_false (by simp) (by decide +kernel)
  · exact iff_of_false (by simp) fun h => h.1 hback
  · exact iff_of_true rfl ⟨hback, hvisible⟩
  · exact iff_of_false (by simp) fun h => hvisible h.2

private theorem length_le_flatMap {f : Char → List Char} (hne : ∀ c, f c ≠ []) (cs : List Char) :
    cs.length ≤ (cs.flatMap f).length := by
  induction cs with
  | nil => simp
  | cons c cs ih =>
    have hpos : 0 < (f c).length := List.length_pos_iff.mpr (hne c)
    rw [List.flatMap_cons, List.length_cons, List.length_append]
    omega

private theorem flatMap_eq_self_iff {f : Char → List Char} (hne : ∀ c, f c ≠ []) (cs : List Char) :
    cs.flatMap f = cs ↔ ∀ c ∈ cs, f c = [c] := by
  induction cs with
  | nil => simp
  | cons c cs ih =>
    rw [List.flatMap_cons, List.forall_mem_cons, ← ih]
    constructor
    · intro h
      have hone : (f c).length = 1 := by
        have hlength := congrArg List.length h
        have hle := length_le_flatMap hne cs
        have hpos : 0 < (f c).length := List.length_pos_iff.mpr (hne c)
        rw [List.length_append, List.length_cons] at hlength
        omega
      obtain ⟨d, hd⟩ := List.length_eq_one_iff.mp hone
      rw [hd] at h ⊢
      obtain ⟨rfl, htail⟩ := List.cons.inj h
      exact ⟨rfl, htail⟩
    · rintro ⟨hc, hcs⟩
      rw [hc, hcs]
      rfl

/-- Nothing in the text has to be escaped where it is shown, quotes apart. -/
def isPlain (cs : List Char) : Bool :=
  cs.all fun c => c != '\\' && isVisible c

theorem flatMap_readBack_eq_self_iff (cs : List Char) :
    cs.flatMap readBack = cs ↔ isPlain cs = true := by
  simp only [flatMap_eq_self_iff readBack_ne_nil, readBack_eq_iff, isPlain, List.all_eq_true,
    Bool.and_eq_true, bne_iff_ne]

theorem backslash_not_mem_of_isPlain {cs : List Char} (h : isPlain cs = true) : '\\' ∉ cs :=
  fun hmem => by simpa using List.all_eq_true.mp h '\\' hmem

end Text

/-- The template is one mustache, which prints a literal. -/
def Tree.Template.Prints (t : Tree.Template) (l : Literal) : Prop :=
  ∃ m : Tree.LiteralMustache, t.body = [.dynamic (.literal m)] ∧ m.value = l

theorem Tree.Template.Prints.unique {t : Tree.Template} {l l' : Literal} (h : t.Prints l)
    (h' : t.Prints l') : l = l' := by
  obtain ⟨m, hm, rfl⟩ := h
  obtain ⟨m', hm', rfl⟩ := h'
  rw [hm] at hm'
  cases hm'
  rfl

theorem Tree.Assembly.statements_lone {src : Source} {a b : Tree.Assembly} {s : Mustache.Statement}
    (h : statement src a s = .ok b) : statements src a [s] = .ok b := by
  unfold statements
  rw [h]
  rfl

theorem preprocess_printed {text : List Char} {l : Literal} {loc : Location} {options : Options}
    (h : Mustache.parse text options.keepLines = .ok (printed (.literal l loc) text)) :
    ∃ t, preprocess text options = .ok t ∧ t.Prints l := by
  have hready := Draft.ready_start options.mode
  let src : Source := ⟨text, options.moduleName⟩
  let whole : Location := ⟨.first, Position.first.after text⟩
  have hdynamic : Tree.dynamic src ⟨⟨.literal l loc, [], none⟩, true, {}, whole⟩
      = .ok (.literal ⟨l, src.spanFor loc, false, {}, src.spanFor whole⟩) := rfl
  have hassemble : Tree.assemble src options.mode options.locals _ = _ :=
    Draft.assemble_body (Tree.Assembly.statements_lone (Draft.mustache_leads hready hdynamic))
      (Draft.grows_append hready _)
  have hsame : preprocess text options = Tree.assemble src options.mode options.locals
      (printed (.literal l loc) text) := by
    rw [preprocess, h]
  exact ⟨_, hsame.trans hassemble, _, rfl, rfl⟩

theorem preprocess_quoted {value : List Char} (hlast : value.getLast? ≠ some '\\')
    (options : Options) :
    ∃ t, preprocess (braced (quoted '"' value)) options = .ok t ∧ t.Prints (.string value) :=
  preprocess_printed (Mustache.parse_quoted (.inl rfl) hlast options.keepLines)

theorem preprocess_keyword {c : Char} {cs : List Char} {l : Literal}
    (h : Mustache.keyword? (c :: cs) = some l) (hchars : (c :: cs).all Mustache.isNameChar = true)
    (hc : c.isAlpha = true) (ha : c ≠ 'a') (hopens : Mustache.opensPlain c = true)
    (options : Options) :
    ∃ t, preprocess (braced (c :: cs)) options = .ok t ∧ t.Prints l :=
  preprocess_printed (Mustache.parse_braced hopens (Mustache.scans_keyword h hchars hc ha rfl)
    (fun _ _ => Mustache.expression_literal) options.keepLines)

namespace Literal

/-- The literal is printed by the template that is what is shown of it, between braces. -/
def PastesBack (l : Literal) (options : Options) : Prop :=
  ∃ t, preprocess (braced l.display) options = .ok t ∧ t.Prints l

/-- Nothing in the literal has to be escaped where it is shown, quotes apart. -/
def isPlain : Literal → Bool
  | string value => Text.isPlain value
  | _ => true

private theorem pastesBack_string (value : List Char) (options : Options) :
    (string value).PastesBack options ↔ Text.isPlain value = true := by
  have hdisplay : (string value).display = quoted '"' (value.flatMap Text.readBack) :=
    Text.quote_eq value
  rw [PastesBack, hdisplay, ← Text.flatMap_readBack_eq_self_iff]
  by_cases hlast : (value.flatMap Text.readBack).getLast? = some '\\'
  · -- the last backslash keeps the string open, and a plain string has none
    refine iff_of_false ?_ fun heq => ?_
    · rintro ⟨t, ht, -⟩
      rw [preprocess, Mustache.parse_quoted_unclosed (.inl rfl) hlast] at ht
      cases ht
    · rw [heq] at hlast
      have hplain := (Text.flatMap_readBack_eq_self_iff value).mp heq
      exact Text.backslash_not_mem_of_isPlain hplain (List.mem_of_getLast? hlast)
  · obtain ⟨t, ht, hprints⟩ := preprocess_quoted hlast options
    constructor
    · rintro ⟨t', ht', hprints'⟩
      obtain rfl : t = t' := Except.ok.inj (ht.symm.trans ht')
      exact string.inj (hprints.unique hprints')
    · intro heq
      exact ⟨t, ht, heq ▸ hprints⟩

private theorem pastesBack_boolean (b : Bool) (options : Options) :
    (boolean b).PastesBack options := by
  cases b with
  | true => exact preprocess_keyword rfl (by decide) (by decide) (by decide) (by decide) options
  | false => exact preprocess_keyword rfl (by decide) (by decide) (by decide) (by decide) options

/-- The strings that paste back are the plain ones; booleans, null and undefined all do. -/
theorem pastesBack_iff {l : Literal} (hl : ∀ x written, l ≠ .number x written)
    (options : Options) : l.PastesBack options ↔ l.isPlain = true := by
  cases l with
  | string value => exact pastesBack_string value options
  | number x written => exact absurd rfl (hl x written)
  | boolean b => exact iff_of_true (pastesBack_boolean b options) rfl
  | null =>
    exact iff_of_true
      (preprocess_keyword rfl (by decide) (by decide) (by decide) (by decide) options) rfl
  | undefined =>
    exact iff_of_true
      (preprocess_keyword rfl (by decide) (by decide) (by decide) (by decide) options) rfl

/-- A quote pastes back. A backslash does not: the string is printed where it is written and not
where it is pasted, since the backslash is doubled where it is shown. -/
theorem pastesBack_iff_backslash :
    (∀ x written, string ['a', '"'] ≠ .number x written)
    ∧ (string ['a', '"']).PastesBack {}
    ∧ (∀ x written, string ['a', '\\', 'b'] ≠ .number x written)
    ∧ (∃ t, preprocess (braced ['"', 'a', '\\', 'b', '"']) {} = .ok t
        ∧ t.Prints (string ['a', '\\', 'b']))
    ∧ ¬ (string ['a', '\\', 'b']).PastesBack {} := by
  have hquote : ∀ x written, string ['a', '"'] ≠ .number x written := nofun
  have hback : ∀ x written, string ['a', '\\', 'b'] ≠ .number x written := nofun
  have hlast : ['a', '\\', 'b'].getLast? ≠ some '\\' := by decide
  have hplain : (string ['a', '"']).isPlain = true := by decide +kernel
  have hshown : ¬ (string ['a', '\\', 'b']).isPlain = true := by decide +kernel
  exact ⟨hquote, (pastesBack_iff hquote {}).mpr hplain, hback, preprocess_quoted hlast {},
    fun hpastes => hshown ((pastesBack_iff hback {}).mp hpastes)⟩

end Literal

end HtmlTemplate
