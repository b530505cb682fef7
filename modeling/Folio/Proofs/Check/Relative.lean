import Folio.Proofs.Bytes.Search
import Folio.Proofs.Check.Disguise

/-!
# Relative URLs

A URL that begins with a slash, a hash or a question mark has no scheme. The policy takes what
stands in front of the first `://` for one, wherever that is, and knows no scheme that begins like
this. So such a URL passes unless its path, its query or its fragment holds a `://`, and then it is
refused for a scheme that it does not have.
-/

set_option autoImplicit false

namespace Folio.Url

/-- A slash, a hash and a question mark: what a URL without a scheme may begin with. -/
def relativeStarts : Bytes := utf8 "/#?"

theorem mem_relativeStarts {b : UInt8} : b ∈ relativeStarts ↔ b = 47 ∨ b = 35 ∨ b = 63 := by
  have hstarts : relativeStarts = [47, 35, 63] := rfl
  simp [hstarts]

section Relative

variable {b : UInt8} (hb : b ∈ relativeStarts)
include hb

theorem relative_kept : ¬ b ≤ 32 ∧ isIgnored b = false ∧ Bytes.lowerByte b = b ∧ b ≠ 58 := by
  rcases mem_relativeStarts.1 hb with rfl | rfl | rfl <;> decide

theorem relative_starts_none : ∀ scheme ∈ utf8 "data:" :: dangerousSchemes ++ harmlessSchemes,
    scheme ≠ [] ∧ scheme.head? ≠ some b := by
  rcases mem_relativeStarts.1 hb with rfl | rfl | rfl <;> decide

theorem normalize_relative (rest : Bytes) : normalize (b :: rest) = bare (b :: rest) := by
  obtain ⟨hfront, hkept, -⟩ := relative_kept hb
  rw [normalize_cons, bare_cons, if_neg hfront, hkept]
  rfl

theorem head?_bare (rest : Bytes) : (bare (b :: rest)).head? = some b := by
  obtain ⟨-, hkept, hlower, -⟩ := relative_kept hb
  rw [bare_cons, hkept, hlower]
  rfl

theorem begins_relative {scheme : Bytes} (h : scheme ∈ utf8 "data:" :: dangerousSchemes)
    (rest : Bytes) : begins scheme (strip (b :: rest)) = false := by
  obtain ⟨hsome, hfirst⟩ := relative_starts_none hb scheme (List.mem_append_left _ h)
  obtain ⟨c, tail, rfl⟩ := List.exists_cons_of_ne_nil hsome
  obtain ⟨behind, hbehind⟩ := List.head?_eq_some_iff.1 (head?_bare hb rest)
  have hne : c ≠ b := fun heq => hfirst (congrArg some heq)
  rw [begins_strip, normalize_relative hb, hbehind]
  simp [Bytes.startsWith, List.isPrefixOf, hne]

theorem head?_of_leads {rest scheme after : Bytes}
    (h : Bytes.Leads (utf8 "://") scheme after (bare (b :: rest))) : scheme.head? = some b := by
  obtain ⟨-, -, -, hcolon⟩ := relative_kept hb
  have hhead := head?_bare hb rest
  rw [h.eq] at hhead
  cases scheme with
  | nil => exact absurd (Option.some.inj hhead).symm hcolon
  | cons c scheme => exact hhead

/-- Whatever stands in front of the first `://` is taken for a scheme that is not known. -/
theorem check_relative (rest : Bytes) (allowInline : Bool) :
    check (b :: rest) allowInline =
      (Bytes.before? (utf8 "://") (bare (b :: rest))).map .unknownScheme := by
  have hdata : begins (utf8 "data:") (strip (b :: rest)) = false :=
    begins_relative hb List.mem_cons_self rest
  have hnone : (dangerousSchemes.find? fun scheme => begins scheme (strip (b :: rest))) = none := by
    rw [List.find?_eq_none]
    intro scheme hscheme
    simp [begins_relative hb (List.mem_cons_of_mem _ hscheme)]
  rw [check, hdata, Bool.and_false, if_neg Bool.false_ne_true, checkScheme, hnone,
    schemeBeforeSlashes?, normalize_relative hb]
  cases hscheme : Bytes.before? (utf8 "://") (bare (b :: rest)) with
  | none => rfl
  | some scheme =>
    obtain ⟨after, hleads⟩ := Bytes.before?_eq_some.1 hscheme
    have hunknown : scheme ∉ harmlessSchemes := fun hmem =>
      (relative_starts_none hb scheme (List.mem_append_right _ hmem)).2 (head?_of_leads hb hleads)
    simp [hunknown]

end Relative

/-- A URL that begins with a slash, a hash or a question mark passes just when no `://` is left in
it once tabs and line ends are taken out. Otherwise what stands in front of the first one is
reported as a scheme that is not recognized, although it starts with the slash, the hash or the
question mark. -/
theorem report_relative (context rest : Bytes) (allowInline : Bool) :
    ∀ b ∈ utf8 "/#?",
      (report context (b :: rest) allowInline = [] ↔
        ¬ utf8 "://" <:+: (b :: rest).filter fun c => !isIgnored c) ∧
      ∀ scheme after, Bytes.Leads (utf8 "://") scheme after (normalize (b :: rest)) →
        scheme.head? = some b ∧
        report context (b :: rest) allowInline =
          (Fault.unknownScheme scheme).message context (b :: rest) := by
  intro b hb
  constructor
  · rw [report_eq_nil_iff, check_relative hb, Option.map_eq_none_iff, Bytes.before?_eq_none, bare,
      Bytes.infix_lower (by decide)]
  · intro scheme after hleads
    rw [normalize_relative hb] at hleads
    constructor
    · exact head?_of_leads hb hleads
    · rw [report, check_relative hb, Bytes.before?_eq_some.2 ⟨after, hleads⟩]
      rfl

def tabbedQuery : Bytes := utf8 "?To=Http:\t//x"

theorem tabbedQuery_leads :
    Bytes.Leads (utf8 "://") (utf8 "?to=http") (utf8 "x") (normalize tabbedQuery) := by
  constructor
  · rfl
  · decide

theorem tabbedQuery_report_relative :
    report (utf8 "Link") (utf8 "?To=Http:\tx") false = [] ∧
    report (utf8 "Link") tabbedQuery true =
      utf8 "Link URL has unrecognized scheme '?to=http': ?To=Http:\t//x" := by
  obtain ⟨hpasses, -⟩ :=
    report_relative (utf8 "Link") (utf8 "To=Http:\tx") false 63 (by decide)
  obtain ⟨-, hreports⟩ :=
    report_relative (utf8 "Link") (utf8 "To=Http:\t//x") true 63 (by decide)
  constructor
  · exact hpasses.2 (by decide)
  · exact (hreports _ _ tabbedQuery_leads).2

/-- A link to a page of the same place is refused when its query names the address to go on to. -/
theorem loginLink_refused :
    (utf8 "/login?next=https://example.com/").head? = some 47 ∧
    report (utf8 "Link") (utf8 "/login?next=https://example.com/") false =
      utf8 "Link URL has unrecognized scheme '/login?next=https': /login?next=https://example.com/" :=
  ⟨rfl, rfl⟩

end Folio.Url
