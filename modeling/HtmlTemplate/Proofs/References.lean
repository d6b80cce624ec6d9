import HtmlTemplate.Proofs.Modes

/-! The character references of a text. Decoding replaces each of them, from left to right, by the
character that it stands for. What a text ends with decides about no reference in it: one that is
not complete there is none, whatever follows. -/

namespace HtmlTemplate.Html

/-- The text after some characters that belong to a reference. -/
def decodeAfter (skip : Nat) : List Char → List Char
  | [] => []
  | c :: cs =>
    match skip with
    | skip + 1 => decodeAfter skip cs
    | 0 =>
      if c = '&' then
        match Reference.decode? cs with
        | some (d, n) => d :: decodeAfter n cs
        | none => c :: decodeAfter 0 cs
      else c :: decodeAfter 0 cs

def decodeRefs (cs : List Char) : List Char :=
  decodeAfter 0 cs

private theorem decodeAfter_eq_drop (n : Nat) (cs : List Char) :
    decodeAfter n cs = decodeRefs (cs.drop n) := by
  induction cs generalizing n with
  | nil => simp [decodeRefs, decodeAfter]
  | cons c cs ih =>
    cases n with
    | zero => rfl
    | succ n => exact ih n

@[simp] theorem decodeRefs_nil : decodeRefs [] = [] := rfl

theorem decodeRefs_reference {cs : List Char} {d : Char} {n : Nat}
    (h : Reference.decode? cs = some (d, n)) :
    decodeRefs ('&' :: cs) = d :: decodeRefs (cs.drop n) := by
  rw [← decodeAfter_eq_drop, decodeRefs, decodeAfter]
  simp only [h, ↓reduceIte]

theorem decodeRefs_cons {c : Char} {cs : List Char} (h : c = '&' → Reference.decode? cs = none) :
    decodeRefs (c :: cs) = c :: decodeRefs cs := by
  rw [decodeRefs, decodeAfter]
  by_cases hc : c = '&'
  · simp only [h hc, if_pos hc]
    rfl
  · rw [if_neg hc]
    rfl

def Broken (cs : List Char) : Prop :=
  ∀ c, cs.head? = some c → c ∈ breaking

theorem broken_nil : Broken [] := nofun

theorem broken_cons {c : Char} {cs : List Char} : Broken (c :: cs) ↔ c ∈ breaking := by
  simp [Broken]

namespace Reference

theorem decode?_broken {cs more : List Char} (h : Broken more) :
    decode? (cs ++ more) = decode? cs := by
  have hshort {body : List Char} {d : Char} (hbody : body? body = some d)
      (hstarts : body ++ [';'] <+: cs ++ more) : body ++ [';'] <+: cs := by
    rcases List.prefix_or_prefix_of_prefix hstarts (List.prefix_append cs more) with hcs | hcs
    · exact hcs
    · -- otherwise the first character after the text belongs to the reference
      obtain ⟨rest, hrest⟩ := hcs
      cases rest with
      | nil => exact ⟨[], by simpa using hrest.symm⟩
      | cons b rest =>
        have hplain : ∀ x ∈ body ++ [';'], x ∉ breaking :=
          List.forall_mem_append.mpr ⟨body?_plain hbody, by simp [breaking]⟩
        rw [← hrest, List.prefix_append_right_inj] at hstarts
        obtain ⟨after, rfl⟩ := hstarts
        exact absurd (h b rfl) (hplain b (by simp [← hrest]))
  ext ⟨d, n⟩
  simp only [decode?_eq_some]
  refine exists_congr fun body => and_congr_right fun hbody => and_congr_right fun _ =>
    and_congr_right fun _ => and_congr_right fun _ => ⟨hshort hbody, fun hstarts => ?_⟩
  exact hstarts.trans (List.prefix_append cs more)

end Reference

end HtmlTemplate.Html
