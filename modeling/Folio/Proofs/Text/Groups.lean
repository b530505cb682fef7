import Folio.Proofs.Bytes.Search
import Folio.Proofs.Text.Slug

/-!
# The groups of a slug

A slug is a row of groups of letters and digits with single hyphens between them, and such a text
is its own slug. A slug that is cut short is the front of the whole one without the hyphen that
the cut may have laid open, so a longer cut only adds to it.
-/

set_option autoImplicit false

namespace Folio.Slug

/-- Groups of letters and digits with single hyphens between them; the empty text has none. -/
def Grouped (s : Bytes) : Prop :=
  ∃ groups : List Bytes, (∀ g ∈ groups, g ≠ [] ∧ ∀ b ∈ g, isSlugByte b = true) ∧
    s = Bytes.join [hyphen] groups

/-- Behind the first hyphen every piece holds something: a hyphen is neither the last byte nor
followed by another one. -/
theorem ne_nil_of_mem_tail_splitOn {s : Bytes} (hlast : s.getLast? ≠ some hyphen)
    (hsingle : s.IsChain fun a b => a = hyphen → b ≠ hyphen) :
    ∀ g ∈ (Bytes.splitOn hyphen s).tail, g ≠ [] := by
  induction s with
  | nil => simp [Bytes.splitOn]
  | cons b s ih =>
    obtain ⟨hnext, hchain⟩ := List.isChain_cons.1 hsingle
    by_cases hb : b = hyphen
    · subst hb
      rw [Bytes.splitOn_cons_self, List.tail_cons]
      cases s with
      | nil => simp at hlast
      | cons c s =>
        have hc : c ≠ hyphen := hnext c rfl rfl
        obtain ⟨first, pieces, -, hcons⟩ := Bytes.splitOn_cons_ne hc s
        rw [List.getLast?_cons_cons] at hlast
        have hpieces := ih hlast hchain
        rw [hcons] at hpieces ⊢
        exact List.forall_mem_cons.2 ⟨List.cons_ne_nil c first, hpieces⟩
    · obtain ⟨first, pieces, hs, hcons⟩ := Bytes.splitOn_cons_ne hb s
      cases s with
      | nil =>
        obtain ⟨rfl, rfl⟩ : [] = first ∧ [] = pieces := List.cons.inj hs
        simp [hcons]
      | cons c s =>
        rw [List.getLast?_cons_cons] at hlast
        have hpieces := ih hlast hchain
        rw [hs] at hpieces
        rwa [hcons]

theorem Tidy.grouped {s : Bytes} (h : Tidy s) : Grouped s := by
  cases s with
  | nil => exact ⟨[], by simp, rfl⟩
  | cons b s =>
    have hb : b ≠ hyphen := by simpa using h.leading
    obtain ⟨first, pieces, -, hcons⟩ := Bytes.splitOn_cons_ne hb s
    have htail := ne_nil_of_mem_tail_splitOn h.trailing h.single
    refine ⟨Bytes.splitOn hyphen (b :: s), fun g hg => ⟨?_, fun c hc => ?_⟩,
      (Bytes.join_splitOn hyphen (b :: s)).symm⟩
    · rw [hcons] at hg htail
      rcases List.mem_cons.1 hg with rfl | hg
      · exact List.cons_ne_nil b first
      · exact htail g hg
    · obtain ⟨hnone, hsub⟩ := Bytes.mem_splitOn hg
      refine (h.bytes c (hsub hc)).resolve_right ?_
      rintro rfl
      exact hnone hc

theorem dropWhile_hyphen {s : Bytes} (h : s.head? ≠ some hyphen) : s.dropWhile isHyphen = s := by
  cases s with
  | nil => rfl
  | cons b s =>
    have hb : ¬ isHyphen b = true := by simpa [isHyphen] using h
    exact List.dropWhile_cons_of_neg hb

theorem rdropWhile_hyphen {s : Bytes} (h : s.getLast? ≠ some hyphen) :
    s.rdropWhile isHyphen = s := by
  rw [List.rdropWhile_eq_self_iff]
  intro hne hlast
  apply h
  rw [List.getLast?_eq_some_getLast hne, eq_of_beq hlast]

theorem trimHyphens_eq (s : Bytes) :
    trimHyphens s = (s.dropWhile isHyphen).rdropWhile isHyphen := rfl

theorem rdropWhile_prefix_append (s t : Bytes) :
    s.rdropWhile isHyphen <+: (s ++ t).rdropWhile isHyphen := by
  induction t using List.reverseRecOn with
  | nil => simp
  | append_singleton t b ih =>
    rw [← List.append_assoc, List.rdropWhile_concat]
    split
    · exact ih
    · have hfront : s <+: s ++ t ++ [b] := by
        rw [List.append_assoc]
        exact List.prefix_append s _
      exact (List.rdropWhile_prefix isHyphen s).trans hfront

theorem ofText_eq_cut (text : Bytes) (n : Nat) :
    ofText text n = ((whole text).take n).rdropWhile isHyphen := by
  have htidy := tidy_whole text
  rw [ofText_eq]
  split
  · have hhead : ((whole text).take n).head? ≠ some hyphen := by
      cases n with
      | zero => simp
      | succ n => simpa [List.head?_take] using htidy.leading
    rw [trimHyphens_eq, dropWhile_hyphen hhead]
  next h =>
    rw [List.take_of_length_le (Nat.le_of_not_lt h), rdropWhile_hyphen htidy.trailing]

theorem length_ofText_le (text : Bytes) (n : Nat) : (ofText text n).length ≤ n := by
  rw [ofText_eq_cut]
  exact (List.rdropWhile_prefix isHyphen _).length_le.trans (List.length_take_le n _)

theorem ofText_prefix (text : Bytes) {m n : Nat} (h : m ≤ n) : ofText text m <+: ofText text n := by
  obtain ⟨rest, hrest⟩ := List.take_prefix_take_left h (l := whole text)
  rw [ofText_eq_cut, ofText_eq_cut, ← hrest]
  exact rdropWhile_prefix_append _ rest

theorem separates_of_isSlugByte {b : UInt8} (h : isSlugByte b = true) : separates b = false := by
  grind [isSlugByte, Bytes.isLowerLetter, Bytes.isDigit, separates, isHyphen, hyphen, Bytes.isSpace]

theorem lowerByte_eq_self {b : UInt8} (h : isSlugByte b = true ∨ b = hyphen) :
    Bytes.lowerByte b = b := by
  grind [isSlugByte, Bytes.isLowerLetter, Bytes.isDigit, hyphen, Bytes.lowerByte]

theorem collapse_eq_self {s : Bytes} (hbytes : ∀ b ∈ s, isSlugByte b = true ∨ b = hyphen)
    (hsingle : s.IsChain fun a b => a = hyphen → b ≠ hyphen) :
    collapse false s = s ∧ (s.head? ≠ some hyphen → collapse true s = s) := by
  induction s with
  | nil => exact ⟨rfl, fun _ => rfl⟩
  | cons b s ih =>
    obtain ⟨hb, hs⟩ := List.forall_mem_cons.1 hbytes
    obtain ⟨hnext, hchain⟩ := List.isChain_cons.1 hsingle
    obtain ⟨hplain, hinside⟩ := ih hs hchain
    rcases hb with hb | rfl
    · have hsep : separates b = false := separates_of_isSlugByte hb
      simp [collapse, hsep, hplain]
    · have hhead : s.head? ≠ some hyphen := fun h => hnext hyphen h rfl rfl
      simp [collapse, separates_hyphen, hinside hhead]

theorem Tidy.whole_eq {s : Bytes} (h : Tidy s) : whole s = s := by
  have hlower : Bytes.lower s = s :=
    (List.map_congr_left fun b hb => lowerByte_eq_self (h.bytes b hb)).trans (List.map_id s)
  have hkept : (s.filter fun b => isSlugByte b || separates b) = s := by
    refine List.filter_eq_self.2 fun b hb => ?_
    rcases h.bytes b hb with hb | rfl
    · simp [hb]
    · simp [separates_hyphen]
  rw [whole, hlower, hkept, (collapse_eq_self h.bytes h.single).1, trimHyphens_eq,
    dropWhile_hyphen h.leading, rdropWhile_hyphen h.trailing]

theorem Tidy.ofText_eq {s : Bytes} (h : Tidy s) {n : Nat} (hn : s.length ≤ n) : ofText s n = s := by
  rw [ofText_eq_cut, h.whole_eq, List.take_of_length_le hn, rdropWhile_hyphen h.trailing]

/-- Whatever the text, its slug for a length is made of groups, is no longer than that, is its own
slug for the same length, and is the front of the slug for any greater length. -/
theorem ofText_grouped (text : Bytes) (m : Nat) :
    Grouped (ofText text m) ∧ (ofText text m).length ≤ m ∧
      ofText (ofText text m) m = ofText text m ∧
      ∀ n, m ≤ n → ofText text m <+: ofText text n := by
  have htidy := tidy_ofText text m
  have hlength := length_ofText_le text m
  exact ⟨htidy.grouped, hlength, htidy.ofText_eq hlength, fun n hn => ofText_prefix text hn⟩

theorem naming_ofText_grouped :
    ofText (utf8 " Two -- Words! ") 4 = utf8 "two" ∧
    ofText (utf8 " Two -- Words! ") 6 = utf8 "two-wo" ∧
    4 ≤ 6 ∧ ofText (utf8 " Two -- Words! ") 4 <+: ofText (utf8 " Two -- Words! ") 6 := by
  obtain ⟨-, -, -, hlonger⟩ := ofText_grouped (utf8 " Two -- Words! ") 4
  exact ⟨by decide +kernel, by decide +kernel, by decide, hlonger 6 (by decide)⟩

end Folio.Slug
