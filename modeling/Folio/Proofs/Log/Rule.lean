import Mathlib.Data.List.TakeWhile
import Folio.Log.Registry
import Folio.Proofs.Bytes.Search

/-!
# Rules of a log

What a rule line says and which names a pattern covers, apart from how they are read: the lines
that are accepted are those that write a rule, and the category of a name has the level of the
last rule that covers it.
-/

set_option autoImplicit false

namespace Folio.Log

/-- A pattern covers all names, or a name with those below it, or just the name that it is. -/
def Covers (pattern name : Bytes) : Prop :=
  pattern = [star] ∨
  (∃ root, pattern = root ++ [dot, star] ∧ (name = root ∨ root ++ [dot] <+: name)) ∨
  pattern = name

theorem branch?_eq_some {pattern root : Bytes} :
    branch? pattern = some root ↔ pattern = root ++ [dot, star] := by
  have hreverse : pattern = root ++ [dot, star] ↔
      pattern.reverse = star :: dot :: root.reverse := by
    rw [← List.reverse_inj]
    simp
  rw [hreverse, branch?]
  split
  · next name hname =>
    rw [hname, Option.some.injEq]
    constructor
    · rintro rfl
      simp [star, dot]
    · intro h
      simp [(List.cons.inj (List.cons.inj h).2).2]
  · next hother =>
    exact iff_of_false nofun fun h => hother root.reverse h

theorem branch_iff {root name : Bytes} :
    (root.isPrefixOf name && (name.drop root.length).head?.all (· == dot)) = true ↔
      name = root ∨ root ++ [dot] <+: name := by
  rw [Bool.and_eq_true, List.isPrefixOf_iff_prefix]
  constructor
  · rintro ⟨⟨rest, rfl⟩, hrest⟩
    rw [List.drop_left] at hrest
    cases rest with
    | nil => exact .inl (List.append_nil root)
    | cons b rest =>
      obtain rfl : b = dot := by simpa using hrest
      exact .inr ⟨rest, by simp⟩
  · rintro (rfl | ⟨rest, rfl⟩)
    · simp
    · simp

theorem patternMatches_iff {pattern name : Bytes} :
    patternMatches pattern name = true ↔ Covers pattern name := by
  unfold patternMatches Covers
  by_cases hall : pattern = [star]
  · rw [if_pos hall]
    exact iff_of_true rfl (.inl hall)
  rw [if_neg hall]
  cases hbranch : branch? pattern with
  | some root =>
    obtain rfl := branch?_eq_some.1 hbranch
    dsimp only
    rw [branch_iff]
    constructor
    · exact fun h => .inr (.inl ⟨root, rfl, h⟩)
    · rintro (h | ⟨root', hroot, h⟩ | rfl)
      · exact absurd h hall
      · rwa [List.append_cancel_right hroot]
      · exact .inr ⟨[star], by simp⟩
  | none =>
    dsimp only
    rw [beq_iff_eq]
    constructor
    · exact fun h => .inr (.inr h)
    · rintro (h | ⟨root, hroot, -⟩ | h)
      · exact absurd h hall
      · rw [branch?_eq_some.2 hroot] at hbranch
        cases hbranch
      · exact h

/-- The level of a name: that of the last rule which covers it. -/
inductive LevelUnder (rules : List Rule) (name : Bytes) : Int → Prop
  | last (before after : List Rule) (rule : Rule) (hrules : rules = before ++ rule :: after)
      (covers : Covers rule.pattern name) (hlast : ∀ r ∈ after, ¬ Covers r.pattern name) :
      LevelUnder rules name rule.level
  | unmentioned (hnone : ∀ r ∈ rules, ¬ Covers r.pattern name) :
      LevelUnder rules name Severity.warn.rank

theorem levelUnder_iff {rules : List Rule} {name : Bytes} {level : Int} :
    LevelUnder rules name level ↔ (Registry.categoryUnder rules name).level = level := by
  have hcovers (r : Rule) : r.appliesTo name = true ↔ Covers r.pattern name := patternMatches_iff
  constructor
  · rintro (⟨before, after, rule, rfl, covers, hlast⟩ | hnone)
    · have hfind : (before ++ rule :: after).reverse.find? (fun r => r.appliesTo name) =
          some rule := by
        refine List.find?_eq_some_iff_append.2 ⟨(hcovers rule).2 covers, after.reverse,
          before.reverse, by simp, fun r hr => ?_⟩
        simpa using (hcovers r).not.2 (hlast r (List.mem_reverse.1 hr))
      rw [Registry.categoryUnder, hfind]
    · have hfind : rules.reverse.find? (fun r => r.appliesTo name) = none := by
        rw [List.find?_eq_none]
        exact fun r hr => (hcovers r).not.2 (hnone r (List.mem_reverse.1 hr))
      rw [Registry.categoryUnder, hfind]
      rfl
  · rintro rfl
    unfold Registry.categoryUnder
    split
    · next rule hfind =>
      obtain ⟨hrule, after, before, hrules, hafter⟩ := List.find?_eq_some_iff_append.1 hfind
      refine .last before.reverse after.reverse rule ?_ ((hcovers rule).1 hrule) ?_
      · rw [← List.reverse_reverse rules, hrules]
        simp
      · intro r hr
        exact (hcovers r).not.1 (by simpa using hafter r (List.mem_reverse.1 hr))
    · next hfind =>
      rw [List.find?_eq_none] at hfind
      exact .unmentioned fun r hr => (hcovers r).not.1 (hfind r (List.mem_reverse.2 hr))

def stream? (target : Bytes) : Option Output :=
  if target = utf8 ">stdout" then some .stdout
  else if target = utf8 ">stderr" then some .stderr
  else none

def Rule.ofLine? (line : Bytes) : Option Rule :=
  match (RuleText.ofLine line).selector.cutLast? dot with
  | none => none
  | some (pattern, name) =>
    if pattern = [] ∨ nameSize ≤ pattern.length then none
    else
      match Severity.ofName? name, stream? (RuleText.ofLine line).target with
      | some severity, some output => some ⟨pattern, severity.rank, output⟩
      | _, _ => none

inductive Targets : Bytes → Output → Prop
  | absent : Targets [] .stderr
  | stderr : Targets (utf8 ">stderr") .stderr
  | stdout : Targets (utf8 ">stdout") .stdout

/-- A line writes a rule: its pattern and a severity, in any letter case, with a dot between, and
behind white space a target, up to a semicolon. -/
inductive Rule.Writes (rule : Rule) (line : Bytes) : Prop
  | intro (name rest : Bytes) (severity : Severity)
      (parts : line = rule.pattern ++ dot :: name ++ rest)
      (nonempty : rule.pattern ≠ []) (short : rule.pattern.length < nameSize)
      (unbroken : ∀ b ∈ rule.pattern, Bytes.isSpace b = false)
      (named : Severity.ofName? name = some severity) (level : rule.level = severity.rank)
      (spaced : ∀ b ∈ rest.head?, Bytes.isSpace b = true)
      (target : Targets (Bytes.trimBy Bytes.isSpace (rest.takeWhile (· != 59))) rule.output)

theorem isSpace_lowerByte (b : UInt8) : Bytes.isSpace (Bytes.lowerByte b) = Bytes.isSpace b := by
  grind [Bytes.isSpace, Bytes.lowerByte]

theorem ofName?_word {name : Bytes} {severity : Severity}
    (h : Severity.ofName? name = some severity) :
    dot ∉ name ∧ ∀ b ∈ name, Bytes.isSpace b = false := by
  have hnames : ∀ s ∈ Severity.all, dot ∉ s.name.lower ∧
      ∀ b ∈ s.name.lower, Bytes.isSpace b = false := by decide +kernel
  have hname : severity.name.lower = name.lower := by simpa using List.find?_some h
  obtain ⟨hdot, hword⟩ := hnames severity (List.mem_of_find?_eq_some h)
  rw [hname] at hdot hword
  constructor
  · exact fun hmem => hdot (List.mem_map_of_mem (f := Bytes.lowerByte) hmem)
  · intro b hb
    rw [← isSpace_lowerByte]
    exact hword _ (List.mem_map_of_mem hb)

theorem stream?_eq_some {target : Bytes} {output : Output} :
    stream? (if target.isEmpty then utf8 ">stderr" else target) = some output ↔
      Targets target output := by
  constructor
  · intro h
    cases target with
    | nil =>
      obtain rfl : Output.stderr = output := Option.some.inj h
      exact .absent
    | cons b rest =>
      rw [List.isEmpty_cons, if_neg Bool.false_ne_true, stream?] at h
      split at h
      · next heq =>
        obtain rfl := Option.some.inj h
        exact heq ▸ .stdout
      · split at h
        · next heq =>
          obtain rfl := Option.some.inj h
          exact heq ▸ .stderr
        · cases h
  · rintro (_ | _ | _) <;> rfl

theorem ofLine_append {selector rest : Bytes} (hselector : ∀ b ∈ selector, Bytes.isSpace b = false)
    (hrest : ∀ b ∈ rest.head?, Bytes.isSpace b = true) :
    RuleText.ofLine (selector ++ rest) =
      ⟨selector,
        if (Bytes.trimBy Bytes.isSpace (rest.takeWhile (· != 59))).isEmpty then utf8 ">stderr"
        else Bytes.trimBy Bytes.isSpace (rest.takeWhile (· != 59))⟩ := by
  have hword : ∀ b ∈ selector, (!Bytes.isSpace b) = true := fun b hb => by simp [hselector b hb]
  have hstop : rest.takeWhile (fun b => !Bytes.isSpace b) = [] ∧
      rest.dropWhile (fun b => !Bytes.isSpace b) = rest := by
    cases rest with
    | nil => exact ⟨rfl, rfl⟩
    | cons b rest => simp [hrest b rfl]
  rw [RuleText.ofLine, List.takeWhile_append_of_pos hword, List.dropWhile_append_of_pos hword,
    hstop.1, hstop.2, List.append_nil]

theorem exists_firstWord (line : Bytes) : ∃ selector rest, line = selector ++ rest ∧
    (∀ b ∈ selector, Bytes.isSpace b = false) ∧ ∀ b ∈ rest.head?, Bytes.isSpace b = true := by
  refine ⟨line.takeWhile fun b => !Bytes.isSpace b, line.dropWhile fun b => !Bytes.isSpace b,
    List.takeWhile_append_dropWhile.symm, fun b hb => ?_, fun b hb => ?_⟩
  · simpa using List.mem_takeWhile_imp hb
  · have hstop := List.head?_dropWhile_not (fun b => !Bytes.isSpace b) line
    rw [Option.mem_def.1 hb] at hstop
    simpa using hstop

/-- The lines that are accepted are those that write a rule. -/
theorem ofLine?_eq_some {line : Bytes} {rule : Rule} :
    Rule.ofLine? line = some rule ↔ rule.Writes line := by
  constructor
  · intro h
    obtain ⟨selector, rest, rfl, hselector, hspaced⟩ := exists_firstWord line
    rw [Rule.ofLine?, ofLine_append hselector hspaced] at h
    dsimp only at h
    split at h
    · cases h
    · next pattern name hcut =>
      obtain ⟨rfl, -⟩ := Bytes.eq_of_cutLast? hcut
      split at h
      · cases h
      · next hpattern =>
        obtain ⟨hne, hlong⟩ := not_or.1 hpattern
        split at h
        · next severity output hnamed hstream =>
          obtain rfl := Option.some.inj h
          exact ⟨name, rest, severity, rfl, hne, Nat.not_le.1 hlong,
            fun b hb => hselector b (List.mem_append_left _ hb), hnamed, rfl, hspaced,
            stream?_eq_some.1 hstream⟩
        · cases h
  · rintro ⟨name, rest, severity, rfl, hne, hshort, hunbroken, hnamed, hlevel, hspaced, htarget⟩
    obtain ⟨hdot, hword⟩ := ofName?_word hnamed
    have hselector : ∀ b ∈ rule.pattern ++ dot :: name, Bytes.isSpace b = false := by
      intro b hb
      rcases List.mem_append.1 hb with hb | hb
      · exact hunbroken b hb
      · rcases List.mem_cons.1 hb with rfl | hb
        · rfl
        · exact hword b hb
    rw [Rule.ofLine?, ofLine_append hselector hspaced]
    dsimp only
    rw [Bytes.cutLast?_append hdot]
    dsimp only
    rw [if_neg (not_or.2 ⟨hne, Nat.not_le.2 hshort⟩), hnamed, stream?_eq_some.2 htarget]
    dsimp only
    rw [← hlevel]

def textLines (text : Bytes) : List Bytes :=
  (text.untilNul.splitOn 10).map (Bytes.trimBy Bytes.isSpace)

def textRules (text : Bytes) : List Rule :=
  (ruleLines false (textLines text)).filterMap Rule.ofLine?

theorem ruleLines_cons (inRules : Bool) (line : Bytes) (rest : List Bytes) :
    ruleLines inRules (line :: rest) =
      if line.head? = some 91 then ruleLines (Bytes.startsWith (utf8 "[rules]") line) rest
      else if inRules = true ∧ line ≠ [] ∧ line.head? ≠ some 35 then
        line :: ruleLines inRules rest
      else ruleLines inRules rest := by
  rcases line with _ | ⟨b, line⟩
  · simp [ruleLines]
  by_cases hcomment : b = 35
  · simp [ruleLines, hcomment]
  by_cases hheading : b = 91
  · simp [ruleLines, hheading]
  · simp [ruleLines, hcomment, hheading]

/-- What lines add, in the group of rules or outside it. A heading opens the group or another one,
and in the group a line adds the rule that it writes, unless it is a comment. -/
inductive Adds : Bool → List Bytes → List Rule → Prop
  | nil (inRules : Bool) : Adds inRules [] []
  | heading (inRules : Bool) {line : Bytes} {lines : List Bytes} {rules : List Rule}
      (heading : line.head? = some 91)
      (h : Adds (Bytes.startsWith (utf8 "[rules]") line) lines rules) :
      Adds inRules (line :: lines) rules
  | rule {line : Bytes} {rule : Rule} {lines : List Bytes} {rules : List Rule}
      (noHeading : line.head? ≠ some 91) (noComment : line.head? ≠ some 35)
      (writes : rule.Writes line) (h : Adds true lines rules) :
      Adds true (line :: lines) (rule :: rules)
  | refused {line : Bytes} {lines : List Bytes} {rules : List Rule}
      (noHeading : line.head? ≠ some 91)
      (refused : line.head? = some 35 ∨ ∀ rule : Rule, ¬ rule.Writes line)
      (h : Adds true lines rules) : Adds true (line :: lines) rules
  | outside {line : Bytes} {lines : List Bytes} {rules : List Rule}
      (noHeading : line.head? ≠ some 91) (h : Adds false lines rules) :
      Adds false (line :: lines) rules

theorem not_writes_iff {line : Bytes} :
    (∀ rule : Rule, ¬ rule.Writes line) ↔ Rule.ofLine? line = none := by
  rw [Option.eq_none_iff_forall_ne_some]
  exact forall_congr' fun rule => ofLine?_eq_some.symm.not

theorem filterMap_ruleLines_cons {line : Bytes} (noHeading : line.head? ≠ some 91)
    (lines : List Bytes) :
    (ruleLines true (line :: lines)).filterMap Rule.ofLine? =
      (if line.head? = some 35 then none else Rule.ofLine? line).toList ++
        (ruleLines true lines).filterMap Rule.ofLine? := by
  rw [ruleLines_cons, if_neg noHeading]
  rcases line with _ | ⟨b, line⟩
  · rfl
  by_cases hcomment : b = 35
  · simp [hcomment]
  · cases haccepted : Rule.ofLine? (b :: line) <;> simp [hcomment, haccepted]

theorem adds_ruleLines (inRules : Bool) (lines : List Bytes) :
    Adds inRules lines ((ruleLines inRules lines).filterMap Rule.ofLine?) := by
  induction lines generalizing inRules with
  | nil => exact .nil inRules
  | cons line lines ih =>
    by_cases hheading : line.head? = some 91
    · rw [ruleLines_cons, if_pos hheading]
      exact .heading inRules hheading (ih _)
    cases inRules with
    | false =>
      rw [ruleLines_cons, if_neg hheading, if_neg (by simp)]
      exact .outside hheading (ih false)
    | true =>
      rw [filterMap_ruleLines_cons hheading]
      by_cases hcomment : line.head? = some 35
      · rw [if_pos hcomment]
        exact .refused hheading (.inl hcomment) (ih true)
      rw [if_neg hcomment]
      cases haccepted : Rule.ofLine? line with
      | none => exact .refused hheading (.inr (not_writes_iff.2 haccepted)) (ih true)
      | some rule => exact .rule hheading hcomment (ofLine?_eq_some.1 haccepted) (ih true)

theorem adds_iff {inRules : Bool} {lines : List Bytes} {rules : List Rule} :
    Adds inRules lines rules ↔ (ruleLines inRules lines).filterMap Rule.ofLine? = rules := by
  constructor
  · intro h
    induction h with
    | nil => rfl
    | heading inRules heading h ih => rw [ruleLines_cons, if_pos heading, ih]
    | rule noHeading noComment writes h ih =>
      rw [filterMap_ruleLines_cons noHeading, if_neg noComment, ofLine?_eq_some.2 writes, ih]
      rfl
    | @refused line lines rules noHeading refused h ih =>
      have hnone : (if line.head? = some 35 then none else Rule.ofLine? line) = none := by
        rcases refused with hcomment | hwrites
        · rw [if_pos hcomment]
        · rw [not_writes_iff.1 hwrites, ite_self]
      rw [filterMap_ruleLines_cons noHeading, hnone, ih]
      rfl
    | outside noHeading h ih => rw [ruleLines_cons, if_neg noHeading, if_neg (by simp), ih]
  · rintro rfl
    exact adds_ruleLines inRules lines

namespace Registry

variable {r : Registry} {line : Bytes} {rule : Rule}

theorem openTarget_eq {target : Bytes} (unquoted : target.head? ≠ some 34) :
    r.openTarget target = (stream? target).map fun output => (r, output) := by
  have hquoted : quotedName? target = none := by
    unfold quotedName?
    split
    · exact absurd rfl unquoted
    · rfl
  unfold openTarget stream?
  split
  · rfl
  · split
    · rfl
    · rw [hquoted]
      rfl

/-- A line that is accepted adds its rule and does nothing else; a line that is refused does
nothing. -/
theorem addRule_eq (unquoted : (RuleText.ofLine line).target.head? ≠ some 34)
    (room : (Rule.ofLine? line).isSome → r.rules.length < maxRules) :
    ((r.addRule line).status = .ok ↔ (Rule.ofLine? line).isSome) ∧
      (r.addRule line).registry = { r with rules := r.rules ++ (Rule.ofLine? line).toList } := by
  have hrefused : r = { r with rules := r.rules ++ [] } := by rw [List.append_nil]
  revert room
  unfold Rule.ofLine? addRule
  dsimp only
  rw [openTarget_eq unquoted]
  cases (RuleText.ofLine line).selector.cutLast? dot with
  | none => exact fun _ => ⟨by simp, hrefused⟩
  | some cut =>
    obtain ⟨_ | ⟨b, pattern⟩, name⟩ := cut
    · exact fun _ => ⟨by simp, hrefused⟩
    · dsimp only
      cases Severity.ofName? name with
      | none => exact fun _ => ⟨by simp, by simp⟩
      | some severity =>
        dsimp only
        by_cases hlong : nameSize ≤ (b :: pattern).length
        · rw [if_pos hlong, if_pos (.inr hlong)]
          exact fun _ => ⟨by simp, hrefused⟩
        rw [if_neg hlong, if_neg (not_or.2 ⟨List.cons_ne_nil b pattern, hlong⟩)]
        cases stream? (RuleText.ofLine line).target with
        | none =>
          dsimp only [Option.map_none]
          split
          · exact fun _ => ⟨by simp, hrefused⟩
          · exact fun _ => ⟨by simp, hrefused⟩
        | some output =>
          intro room
          rw [if_neg (Nat.not_le.2 (room rfl))]
          exact ⟨by simp, rfl⟩

theorem addRules_eq {lines : List Bytes} (status : Status)
    (unquoted : ∀ line ∈ lines, (RuleText.ofLine line).target.head? ≠ some 34)
    (room : (r.rules ++ lines.filterMap Rule.ofLine?).length ≤ maxRules) :
    (r.addRules status lines).1.rules = r.rules ++ lines.filterMap Rule.ofLine? ∧
      (r.addRules status lines).1.categories = r.categories := by
  induction lines generalizing r status with
  | nil => exact ⟨(List.append_nil _).symm, rfl⟩
  | cons line lines ih =>
    obtain ⟨hline, hlines⟩ := List.forall_mem_cons.1 unquoted
    cases haccepted : Rule.ofLine? line with
    | some rule =>
      rw [List.filterMap_cons_some haccepted, List.append_cons] at room ⊢
      have hroom : r.rules.length < maxRules := by
        simp only [List.length_append, List.length_singleton] at room
        omega
      obtain ⟨hok, hregistry⟩ := addRule_eq hline fun _ => hroom
      rw [haccepted, Option.isSome_some, eq_self, iff_true] at hok
      rw [haccepted] at hregistry
      rw [addRules, if_pos hok, hregistry]
      exact ih status hlines room
    | none =>
      rw [List.filterMap_cons_none haccepted] at room ⊢
      obtain ⟨hok, hregistry⟩ := addRule_eq (r := r) hline (by simp [haccepted])
      rw [haccepted, Option.toList_none, List.append_nil] at hregistry
      rw [addRules, if_neg (by simp [hok, haccepted]), hregistry]
      exact ih _ hlines room

end Registry

end Folio.Log
