import Mathlib.Data.List.Chain
import Mathlib.Data.List.DropRight
import Mathlib.Data.List.Nodup
import Mathlib.Data.List.Perm.Subperm
import Folio.Proofs.Bytes.Numeral
import Folio.Text

/-!
# Slugs that tell headings apart

A slug is made of groups of letters and digits with single hyphens between them, also when it
ends with a number. The names that are tried for a text are all different, so among more of them
than there are slugs given before, one is new; the first new one is the slug of the text.
-/

set_option autoImplicit false

namespace Folio.Slug

/-- Only bytes of groups and hyphens, none of these at an end or next to another. -/
structure Tidy (s : Bytes) : Prop where
  bytes : ∀ b ∈ s, isSlugByte b = true ∨ b = hyphen
  leading : s.head? ≠ some hyphen
  trailing : s.getLast? ≠ some hyphen
  single : s.IsChain fun a b => a = hyphen → b ≠ hyphen

theorem isSlugByte_ne_hyphen {b : UInt8} (h : isSlugByte b = true) : b ≠ hyphen := by
  rintro rfl
  exact absurd h (by decide)

theorem collapse_bytes (inside : Bool) {s : Bytes}
    (h : ∀ b ∈ s, isSlugByte b = true ∨ separates b = true) :
    ∀ b ∈ collapse inside s, isSlugByte b = true ∨ b = hyphen := by
  induction s generalizing inside with
  | nil => simp [collapse]
  | cons c s ih =>
    obtain ⟨hc, hs⟩ := List.forall_mem_cons.1 h
    cases hsep : separates c with
    | true =>
      cases inside with
      | true => simpa [collapse, hsep] using ih true hs
      | false =>
        simp only [collapse, hsep, ↓reduceIte, Bool.false_eq_true]
        exact List.forall_mem_cons.2 ⟨.inr rfl, ih true hs⟩
    | false =>
      simp only [collapse, hsep, Bool.false_eq_true, ↓reduceIte]
      exact List.forall_mem_cons.2 ⟨hc.imp_right (by simp [hsep]), ih false hs⟩

theorem separates_hyphen : separates hyphen = true := rfl

theorem head?_collapse_inside (s : Bytes) : (collapse true s).head? ≠ some hyphen := by
  induction s with
  | nil => simp [collapse]
  | cons c s ih =>
    cases hsep : separates c with
    | true => simpa [collapse, hsep] using ih
    | false =>
      have hc : c ≠ hyphen := by
        rintro rfl
        simp [separates_hyphen] at hsep
      simpa [collapse, hsep] using hc

theorem collapse_single (inside : Bool) (s : Bytes) :
    (collapse inside s).IsChain fun a b => a = hyphen → b ≠ hyphen := by
  induction s generalizing inside with
  | nil => exact .nil
  | cons c s ih =>
    cases hsep : separates c with
    | true =>
      cases inside with
      | true => simpa [collapse, hsep] using ih true
      | false =>
        simp only [collapse, hsep, ↓reduceIte, Bool.false_eq_true]
        have hnext : ∀ b ∈ (collapse true s).head?, hyphen = hyphen → b ≠ hyphen := by
          rintro b hb - rfl
          exact head?_collapse_inside s hb
        exact List.isChain_cons.2 ⟨hnext, ih true⟩
    | false =>
      have hc : c ≠ hyphen := by
        rintro rfl
        simp [separates_hyphen] at hsep
      simp only [collapse, hsep, Bool.false_eq_true, ↓reduceIte]
      exact List.isChain_cons.2 ⟨fun b _ h => absurd h hc, ih false⟩

theorem trimHyphens_infix (s : Bytes) : trimHyphens s <:+: s :=
  (List.rdropWhile_prefix isHyphen _).isInfix.trans (List.dropWhile_suffix isHyphen).isInfix

theorem tidy_trimHyphens {s : Bytes} (hbytes : ∀ b ∈ s, isSlugByte b = true ∨ b = hyphen)
    (hsingle : s.IsChain fun a b => a = hyphen → b ≠ hyphen) : Tidy (trimHyphens s) := by
  have hpart := trimHyphens_infix s
  constructor
  · exact fun b hb => hbytes b (hpart.subset hb)
  · intro hhead
    have hkept : (s.dropWhile isHyphen).head? = some hyphen := by
      obtain ⟨t, ht⟩ := List.rdropWhile_prefix isHyphen (l := s.dropWhile isHyphen)
      rw [← ht, List.head?_append]
      exact Option.or_eq_some_iff.2 (.inl hhead)
    have hstop := List.head?_dropWhile_not isHyphen s
    rw [hkept] at hstop
    exact absurd hstop (by decide)
  · intro hlast
    obtain ⟨hne, hlast⟩ := List.mem_getLast?_eq_getLast hlast
    have hstop := List.rdropWhile_last_not isHyphen (s.dropWhile isHyphen) hne
    exact hstop (congrArg isHyphen hlast.symm)
  · exact hsingle.infix hpart

def whole (text : Bytes) : Bytes :=
  trimHyphens (collapse false ((Bytes.lower text).filter fun b => isSlugByte b || separates b))

theorem ofText_eq (text : Bytes) (maxLength : Nat) :
    ofText text maxLength =
      if maxLength < (whole text).length then trimHyphens ((whole text).take maxLength)
      else whole text := rfl

theorem tidy_whole (text : Bytes) : Tidy (whole text) := by
  have hbytes : ∀ b ∈ (Bytes.lower text).filter fun b => isSlugByte b || separates b,
      isSlugByte b = true ∨ separates b = true := by simp
  exact tidy_trimHyphens (collapse_bytes false hbytes) (collapse_single false _)

theorem tidy_ofText (text : Bytes) (maxLength : Nat) : Tidy (ofText text maxLength) := by
  have htidy := tidy_whole text
  rw [ofText_eq]
  split
  · have htake := List.take_subset maxLength (whole text)
    exact tidy_trimHyphens (fun b hb => htidy.bytes b (htake hb)) (htidy.single.take maxLength)
  · exact htidy

theorem isSlugByte_of_mem_ofNat {n : Nat} {b : UInt8} (h : b ∈ Bytes.ofNat n) :
    isSlugByte b = true := by
  simp [isSlugByte, Bytes.isDigit_of_mem_ofNat h]

theorem Tidy.numbered {s : Bytes} (h : Tidy s) (hs : s ≠ []) (n : Nat) : Tidy (numbered s n) := by
  have hdigits (b : UInt8) (hb : b ∈ Bytes.ofNat n) : b ≠ hyphen :=
    isSlugByte_ne_hyphen (isSlugByte_of_mem_ofNat hb)
  obtain ⟨c, cs, hc⟩ := List.exists_cons_of_ne_nil (Bytes.ofNat_ne_nil n)
  unfold Slug.numbered
  constructor
  · intro b hb
    rcases List.mem_append.1 hb with hb | hb
    · exact h.bytes b hb
    · rcases List.mem_cons.1 hb with rfl | hb
      · exact .inr rfl
      · exact .inl (isSlugByte_of_mem_ofNat hb)
  · rw [List.head?_append_of_ne_nil _ hs]
    exact h.leading
  · have hlast : (s ++ hyphen :: Bytes.ofNat n).getLast? = (Bytes.ofNat n).getLast? := by
      rw [hc, List.getLast?_append_cons, List.getLast?_cons_cons]
    rw [hlast]
    exact fun hmem => hdigits hyphen (List.mem_of_getLast? hmem) rfl
  · have hnumber : (hyphen :: Bytes.ofNat n).IsChain fun a b => a = hyphen → b ≠ hyphen := by
      apply List.Pairwise.isChain
      refine List.pairwise_cons.2 ⟨fun b hb _ => hdigits b hb, ?_⟩
      exact List.pairwise_of_forall_mem_list fun b hb c _ h => absurd h (hdigits b hb)
    refine List.isChain_append.2 ⟨h.single, hnumber, ?_⟩
    rintro a ha b - rfl
    exact absurd ha h.trailing

theorem numbered_injective (s : Bytes) : Function.Injective (numbered s) := by
  intro m n h
  have hdigits : Bytes.ofNat m = Bytes.ofNat n := List.cons_injective (List.append_cancel_left h)
  have hread := congrArg Bytes.natural? hdigits
  rwa [Bytes.natural?_ofNat, Bytes.natural?_ofNat, Option.some.injEq] at hread

def candidate (base : Bytes) : Nat → Bytes
  | 0 => base
  | n + 1 => numbered base (n + 1)

/-- Trying one name after the other, from the `n`-th on, comes to an end with a slug. -/
inductive Settles (seen : List Bytes) (base : Bytes) : Nat → Bytes → Prop
  | free {n : Nat} (hfree : candidate base n ∉ seen) : Settles seen base n (candidate base n)
  | taken {n : Nat} {slug : Bytes} (htaken : candidate base n ∈ seen)
      (hrest : Settles seen base (n + 1) slug) : Settles seen base n slug

theorem Settles.unique {seen : List Bytes} {base s t : Bytes} {n : Nat}
    (hs : Settles seen base n s) (ht : Settles seen base n t) : s = t := by
  induction hs with
  | free hfree =>
    cases ht with
    | free => rfl
    | taken htaken => exact absurd htaken hfree
  | taken htaken _ ih =>
    cases ht with
    | free hfree => exact absurd htaken hfree
    | taken _ hrest => exact ih hrest

theorem settles_at {seen : List Bytes} {base : Bytes} {n k : Nat} (hnk : n ≤ k)
    (hbefore : ∀ j, n ≤ j → j < k → candidate base j ∈ seen) (hfree : candidate base k ∉ seen) :
    Settles seen base n (candidate base k) := by
  induction hnk using Nat.decreasingInduction with
  | self => exact .free hfree
  | of_succ n hn ih =>
    exact .taken (hbefore n (Nat.le_refl n) hn) (ih fun j hj => hbefore j (Nat.le_of_succ_le hj))

theorem exists_numbered_notMem (base : Bytes) (seen : List Bytes) :
    ∃ n ∈ List.range (seen.length + 1), numbered base (n + 1) ∉ seen := by
  by_contra hall
  push Not at hall
  have hinj : Function.Injective fun n => numbered base (n + 1) :=
    (numbered_injective base).comp Nat.succ_injective
  have hdistinct := List.Nodup.map hinj (List.nodup_range (n := seen.length + 1))
  have hseen : ((List.range (seen.length + 1)).map fun n => numbered base (n + 1)) ⊆ seen := by
    intro s hs
    obtain ⟨n, hn, rfl⟩ := List.mem_map.1 hs
    exact hall n hn
  have hlength := (List.Nodup.subperm hdistinct hseen).length_le
  rw [List.length_map, List.length_range] at hlength
  exact Nat.not_succ_le_self _ hlength

theorem unique_eq_candidate (text : Bytes) (seen : List Bytes) :
    ∃ k, unique text seen = candidate (base text) k ∧ candidate (base text) k ∉ seen ∧
      ∀ j < k, candidate (base text) j ∈ seen := by
  by_cases hbase : base text ∈ seen
  · obtain ⟨n, hn, hnew⟩ := exists_numbered_notMem (base text) seen
    obtain ⟨k, hk⟩ : ∃ k, (List.range (seen.length + 1)).find?
        ((fun slug => !seen.contains slug) ∘ fun n => numbered (base text) (n + 1)) = some k := by
      apply Option.isSome_iff_exists.1
      rw [List.find?_isSome]
      exact ⟨n, hn, by simpa using hnew⟩
    have hunique : unique text seen = numbered (base text) (k + 1) := by
      dsimp only [unique]
      rw [if_pos (List.contains_iff_mem.2 hbase), List.find?_map, hk]
      rfl
    obtain ⟨hfree, -, hbefore⟩ := List.find?_range_eq_some.1 hk
    refine ⟨k + 1, hunique, by simpa [candidate] using hfree, ?_⟩
    rintro (_ | j) hj
    · exact hbase
    · simpa [candidate] using hbefore j (by omega)
  · exact ⟨0, by simp [unique, hbase, candidate], hbase, by simp⟩

theorem unique_settles (text : Bytes) (seen : List Bytes) :
    Settles seen (base text) 0 (unique text seen) := by
  obtain ⟨k, hk, hfree, hbefore⟩ := unique_eq_candidate text seen
  rw [hk]
  exact settles_at (Nat.zero_le k) (fun j _ => hbefore j) hfree

theorem unique_notMem (text : Bytes) (seen : List Bytes) : unique text seen ∉ seen := by
  obtain ⟨k, hk, hfree, -⟩ := unique_eq_candidate text seen
  rwa [hk]

def seenAfter (seen : List Bytes) : List Bytes → List Bytes
  | [] => seen
  | text :: texts => seenAfter (unique text seen :: seen) texts

theorem length_uniqueAll (seen texts : List Bytes) :
    (uniqueAll seen texts).length = texts.length := by
  induction texts generalizing seen with
  | nil => rfl
  | cons text texts ih => simp [uniqueAll, ih]

theorem uniqueAll_append (seen texts others : List Bytes) :
    uniqueAll seen (texts ++ others) =
      uniqueAll seen texts ++ uniqueAll (seenAfter seen texts) others := by
  induction texts generalizing seen with
  | nil => rfl
  | cons text texts ih =>
    rw [List.cons_append, uniqueAll, ih, uniqueAll, seenAfter, List.cons_append]

section
variable {seen seen' : List Bytes} {own : Bytes}

/-- A text that was not going to get a slug is given the same one when that slug is taken. -/
theorem unique_of_more (h : ∀ s, s ∈ seen' ↔ s = own ∨ s ∈ seen) {text : Bytes}
    (hown : unique text seen ≠ own) : unique text seen' = unique text seen := by
  obtain ⟨k, hk, hfree, hbefore⟩ := unique_eq_candidate text seen
  have hfree' : candidate (base text) k ∉ seen' := by
    rw [h, not_or]
    exact ⟨hk ▸ hown, hfree⟩
  have hsettles : Settles seen' (base text) 0 (candidate (base text) k) :=
    settles_at (Nat.zero_le k) (fun j _ hj => (h _).2 (.inr (hbefore j hj))) hfree'
  rw [hk]
  exact (unique_settles text seen').unique hsettles

theorem uniqueAll_of_more (h : ∀ s, s ∈ seen' ↔ s = own ∨ s ∈ seen) (texts : List Bytes) :
    uniqueAll seen' texts = uniqueAll seen texts ↔ own ∉ uniqueAll seen texts := by
  induction texts generalizing seen seen' with
  | nil => simp [uniqueAll]
  | cons text texts ih =>
    rw [uniqueAll, uniqueAll, List.mem_cons, not_or]
    by_cases hown : unique text seen = own
    · have hmoved : unique text seen' ≠ unique text seen := by
        intro hsame
        exact unique_notMem text seen' ((h _).2 (.inl (hsame.trans hown)))
      exact iff_of_false (fun heq => hmoved (List.cons.inj heq).1) fun hne => hne.1 hown.symm
    · have hsame := unique_of_more h hown
      have hmore : ∀ s, s ∈ unique text seen :: seen' ↔ s = own ∨ s ∈ unique text seen :: seen := by
        intro s
        rw [List.mem_cons, List.mem_cons, h]
        tauto
      rw [hsame, List.cons_inj_right, ih hmore]
      exact ⟨fun hrest => ⟨Ne.symm hown, hrest⟩, fun hboth => hboth.2⟩

/-- One more text among texts takes a slug, and the others keep theirs exactly when none behind
it was going to get that one. -/
theorem uniqueAll_insert (seen before : List Bytes) (text : Bytes) (after : List Bytes) :
    ∃ own, (uniqueAll seen (before ++ text :: after))[before.length]? = some own ∧
      ((uniqueAll seen (before ++ text :: after)).eraseIdx before.length =
          uniqueAll seen (before ++ after) ↔
        own ∉ (uniqueAll seen (before ++ after)).drop before.length) := by
  have hlength := length_uniqueAll seen before
  have hmore : ∀ s, s ∈ unique text (seenAfter seen before) :: seenAfter seen before ↔
      s = unique text (seenAfter seen before) ∨ s ∈ seenAfter seen before :=
    fun s => List.mem_cons
  refine ⟨unique text (seenAfter seen before), ?_, ?_⟩
  · rw [uniqueAll_append, uniqueAll, ← hlength, List.getElem?_append_right (Nat.le_refl _),
      Nat.sub_self, List.getElem?_cons_zero]
  · rw [uniqueAll_append, uniqueAll_append, uniqueAll, ← hlength,
      List.eraseIdx_append_of_length_le (Nat.le_refl _), Nat.sub_self, List.eraseIdx_cons_zero,
      List.append_right_inj, List.drop_left]
    exact uniqueAll_of_more hmore after

end

end Folio.Slug
