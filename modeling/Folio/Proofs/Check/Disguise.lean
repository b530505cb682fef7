import Mathlib.Logic.Relation
import Folio.Check.Finding

/-!
# Disguised URLs

A browser takes no notice of tabs and line ends in a URL, of control characters and spaces in
front, and of the case of letters in a scheme. The policy looks at the normal form, which none of
these changes: so a URL and its disguises are refused alike, as long as none is too long, and a
dangerous scheme is found under every disguise.
-/

set_option autoImplicit false

namespace Folio.Url

inductive OtherCase : UInt8 → UInt8 → Prop
  | toLower {b : UInt8} (upper : 65 ≤ b ∧ b ≤ 90) : OtherCase b (b + 32)
  | toUpper {b : UInt8} (lower : 97 ≤ b ∧ b ≤ 122) : OtherCase b (b - 32)

/-- One change to a URL that makes no difference to a browser. -/
inductive Disguise : Bytes → Bytes → Prop
  | ignored {b : UInt8} (s t : Bytes) (h : b = 9 ∨ b = 10 ∨ b = 13) :
      Disguise (s ++ t) (s ++ b :: t)
  | front {b : UInt8} (url : Bytes) (h : b ≤ 32) : Disguise url (b :: url)
  | letter {b c : UInt8} (s t : Bytes) (h : OtherCase b c) : Disguise (s ++ b :: t) (s ++ c :: t)

abbrev Disguised : Bytes → Bytes → Prop := Relation.ReflTransGen Disguise

/-- The part of a normal form that a part of a URL gives when something stands in front of it. -/
def bare (url : Bytes) : Bytes := Bytes.lower (url.filter fun b => !isIgnored b)

theorem bare_cons (b : UInt8) (url : Bytes) :
    bare (b :: url) = if isIgnored b then bare url else Bytes.lowerByte b :: bare url := by
  cases h : isIgnored b <;> simp [bare, Bytes.lower, h]

theorem isIgnored_of_not_le {b : UInt8} (h : ¬ b ≤ 32) : isIgnored b = false := by
  grind [isIgnored]

theorem normalize_cons (b : UInt8) (url : Bytes) :
    normalize (b :: url) = if b ≤ 32 then normalize url else Bytes.lowerByte b :: bare url := by
  unfold normalize strip
  split
  next h => rw [List.dropWhile_cons_of_pos (by simpa using h)]
  next h =>
    have hb := bare_cons b url
    rw [List.dropWhile_cons_of_neg (by simpa using h)]
    rwa [isIgnored_of_not_le h, if_neg Bool.false_ne_true] at hb

theorem normalize_append {t u : Bytes} (hbare : bare u = bare t)
    (hnormal : normalize u = normalize t) (s : Bytes) :
    normalize (s ++ u) = normalize (s ++ t) := by
  have happend (s : Bytes) : bare (s ++ u) = bare (s ++ t) := by
    induction s with
    | nil => exact hbare
    | cons b s ih => simp only [List.cons_append, bare_cons, ih]
  induction s with
  | nil => exact hnormal
  | cons b s ih => simp only [List.cons_append, normalize_cons, ih, happend]

theorem OtherCase.same {b c : UInt8} (h : OtherCase b c) :
    Bytes.lowerByte c = Bytes.lowerByte b ∧ ¬ b ≤ 32 ∧ ¬ c ≤ 32 := by
  cases h <;> grind [Bytes.lowerByte]

theorem Disguise.normalize_eq {url url' : Bytes} (h : Disguise url url') :
    normalize url' = normalize url := by
  cases h with
  | ignored s t h =>
    apply normalize_append
    · rw [bare_cons, if_pos (by simpa [isIgnored, or_assoc] using h)]
    · rw [normalize_cons, if_pos (by rcases h with rfl | rfl | rfl <;> decide)]
  | front url h => rw [normalize_cons, if_pos h]
  | letter s t h =>
    obtain ⟨hsame, hb, hc⟩ := h.same
    apply normalize_append
    · simp [bare_cons, isIgnored_of_not_le hb, isIgnored_of_not_le hc, hsame]
    · rw [normalize_cons, normalize_cons, if_neg hb, if_neg hc, hsame]

theorem normalize_disguised {url url' : Bytes} (h : Disguised url url') :
    normalize url' = normalize url := by
  induction h with
  | refl => rfl
  | tail _ hstep ih => exact hstep.normalize_eq.trans ih

theorem disguised_lowerByte (s : Bytes) (b : UInt8) (t : Bytes) :
    Disguised (s ++ Bytes.lowerByte b :: t) (s ++ b :: t) := by
  unfold Bytes.lowerByte
  split
  next h =>
    have hlower : OtherCase (b + 32) (b + 32 - 32) := .toUpper (by grind)
    rw [UInt8.add_sub_cancel] at hlower
    exact .single (.letter s t hlower)
  · exact .refl

theorem disguised_bare (s t : Bytes) : Disguised (s ++ bare t) (s ++ t) := by
  induction t generalizing s with
  | nil => exact .refl
  | cons b t ih =>
    rw [bare_cons]
    cases hb : isIgnored b with
    | true =>
      exact (ih s).tail (.ignored s t (by simpa [isIgnored, or_assoc] using hb))
    | false =>
      have hrest : Disguised (s ++ [b] ++ bare t) (s ++ [b] ++ t) := ih (s ++ [b])
      simp only [List.append_assoc, List.singleton_append] at hrest
      exact (disguised_lowerByte s b (bare t)).trans hrest

theorem disguised_normalize (url : Bytes) : Disguised (normalize url) url := by
  induction url with
  | nil => exact .refl
  | cons b url ih =>
    rw [normalize_cons]
    split
    next h => exact ih.tail (.front url h)
    · exact (disguised_lowerByte [] b (bare url)).trans (disguised_bare [b] url)

def report (context url : Bytes) (allowInline : Bool) : Bytes :=
  ((check url allowInline).map fun fault => fault.message context url).getD []

theorem Fault.message_ne_nil (context url : Bytes) (fault : Fault) :
    fault.message context url ≠ [] := by
  have hwords : ∀ s ∈ [" data URI must have image/* MIME type, got: ",
      " data URI exceeds maximum length (", " URL uses dangerous scheme '",
      " URL has unrecognized scheme '"], utf8 s ≠ [] := by decide
  cases fault <;> simp [message, hwords]

theorem report_eq_nil_iff {context url : Bytes} {allowInline : Bool} :
    report context url allowInline = [] ↔ check url allowInline = none := by
  unfold report
  cases check url allowInline with
  | none => simp
  | some fault => simp [fault.message_ne_nil]

theorem begins_strip (start url : Bytes) :
    begins start (strip url) = Bytes.startsWith start (normalize url) :=
  begins_eq_startsWith start (strip url)

/-- Without inline images the check looks at the normal form alone. -/
theorem checkScheme_congr {url url' : Bytes} (h : normalize url' = normalize url) :
    checkScheme url' = checkScheme url := by
  simp only [checkScheme, begins_strip, schemeBeforeSlashes?, h]

theorem check_congr {url url' : Bytes} (h : normalize url' = normalize url)
    (hshort : url.length ≤ maxInlineSize) (hshort' : url'.length ≤ maxInlineSize) :
    check url' true = check url true := by
  simp only [check, begins_strip, h, checkScheme_congr h, Nat.not_lt.2 hshort, Nat.not_lt.2 hshort']

theorem startsWith_trans {start middle s : Bytes} (h : Bytes.startsWith middle s = true)
    (hstart : start <+: middle) : Bytes.startsWith start s = true :=
  List.isPrefixOf_iff_prefix.2 (hstart.trans (List.isPrefixOf_iff_prefix.1 h))

theorem checkScheme_dangerous {url scheme : Bytes} (hscheme : scheme ∈ dangerousSchemes)
    (h : Bytes.startsWith scheme (normalize url) = true) : checkScheme url ≠ none := by
  have hfound : (dangerousSchemes.find? fun scheme => begins scheme (strip url)).isSome = true :=
    List.find?_isSome.2 ⟨scheme, hscheme, by rwa [begins_strip]⟩
  obtain ⟨first, hfirst⟩ := Option.isSome_iff_exists.1 hfound
  simp [checkScheme, hfirst]

/-- A URL with a dangerous scheme is refused, unless it is an inline image where these are allowed,
and not too long. -/
theorem check_dangerous {url scheme : Bytes} (hscheme : scheme ∈ dangerousSchemes)
    (h : Bytes.startsWith scheme (normalize url) = true) (allowInline : Bool) :
    check url allowInline = none ↔ allowInline = true ∧
      Bytes.startsWith (utf8 "data:image/") (normalize url) = true ∧
      url.length ≤ maxInlineSize := by
  have hrefused : checkScheme url ≠ none := checkScheme_dangerous hscheme h
  have hdata : Bytes.startsWith (utf8 "data:image/") (normalize url) = true →
      Bytes.startsWith (utf8 "data:") (normalize url) = true :=
    fun himage => startsWith_trans himage (by decide)
  simp only [check, begins_strip]
  split
  next hinline =>
    rw [Bool.and_eq_true] at hinline
    cases himage : Bytes.startsWith (utf8 "data:image/") (normalize url) with
    | false => simp
    | true => simp [hinline.1]
  next hinline =>
    refine iff_of_false hrefused ?_
    rintro ⟨hallow, himage, -⟩
    exact hinline (Bool.and_eq_true_iff.2 ⟨hallow, hdata himage⟩)

theorem check_inline {url : Bytes} (h : check url false = none) (allowInline : Bool) :
    check url allowInline = none := by
  have hscheme : checkScheme url = none := h
  unfold check
  split
  next hinline =>
    rw [Bool.and_eq_true, begins_strip] at hinline
    exact absurd hscheme (checkScheme_dangerous (by decide) hinline.2)
  · exact hscheme

/-- A URL and its disguises are found fault with alike, where inline images are allowed as long as
both are short enough for one. Every URL is a disguise of its normal form. Where this starts with
a dangerous scheme there is a finding, except for an inline image that is allowed and short
enough. -/
theorem report_disguised (context : Bytes) :
    (∀ url url', Disguised url url' →
      (report context url' false = [] ↔ report context url false = []) ∧
      (url.length ≤ maxInlineSize → url'.length ≤ maxInlineSize →
        (report context url' true = [] ↔ report context url true = []))) ∧
    (∀ url, Disguised (normalize url) url) ∧
    ∀ url allowInline,
      (∃ scheme ∈ [utf8 "javascript:", utf8 "vbscript:", utf8 "data:", utf8 "file:",
        utf8 "about:"], Bytes.startsWith scheme (normalize url) = true) →
      (report context url allowInline = [] ↔ allowInline = true ∧
        Bytes.startsWith (utf8 "data:image/") (normalize url) = true ∧
        url.length ≤ maxInlineSize) := by
  simp only [report_eq_nil_iff]
  refine ⟨fun url url' h => ?_, disguised_normalize, ?_⟩
  · have hnormal := normalize_disguised h
    have hscheme : check url' false = check url false := checkScheme_congr hnormal
    refine ⟨by rw [hscheme], fun hshort hshort' => ?_⟩
    rw [check_congr hnormal hshort hshort']
  · rintro url allowInline ⟨scheme, hscheme, hstart⟩
    exact check_dangerous hscheme hstart allowInline

def hiddenScript : Bytes := 1 :: utf8 "jaVa\tscript:alert(1)"

theorem hiddenScript_disguised : Disguised (utf8 "javascript:alert(1)") hiddenScript := by
  have hletter : Disguise (utf8 "javascript:alert(1)") (utf8 "jaVascript:alert(1)") :=
    .letter (utf8 "ja") (utf8 "ascript:alert(1)") (.toUpper (b := 118) (by decide))
  have htab : Disguise (utf8 "jaVascript:alert(1)") (utf8 "jaVa\tscript:alert(1)") :=
    .ignored (utf8 "jaVa") (utf8 "script:alert(1)") (.inl rfl)
  exact ((Relation.ReflTransGen.single hletter).tail htab).tail (.front _ (by decide))

theorem hiddenScript_report_disguised :
    Disguised (utf8 "javascript:alert(1)") hiddenScript ∧
    Bytes.startsWith (utf8 "javascript:") (normalize hiddenScript) = true ∧
    report (utf8 "Link") hiddenScript true ≠ [] ∧
    report (utf8 "Link") (utf8 "javascript:alert(1)") false ≠ [] := by
  obtain ⟨hsame, -, hrefused⟩ := report_disguised (utf8 "Link")
  have hstart : Bytes.startsWith (utf8 "javascript:") (normalize hiddenScript) = true := rfl
  have himage : Bytes.startsWith (utf8 "data:image/") (normalize hiddenScript) = false := rfl
  have hscript (allowInline : Bool) : report (utf8 "Link") hiddenScript allowInline ≠ [] := by
    rw [Ne, hrefused hiddenScript allowInline ⟨_, List.mem_cons_self, hstart⟩, himage]
    simp
  refine ⟨hiddenScript_disguised, hstart, hscript true, ?_⟩
  rw [Ne, ← (hsame _ _ hiddenScript_disguised).1]
  exact hscript false

end Folio.Url
