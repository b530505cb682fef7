import Folio.Proofs.Bytes.Numeral
import Folio.Proofs.Log.Names
import Folio.Proofs.Log.Rule

/-!
# Levels of log categories

A registry is started, stopped, given rules and asked for categories in any order. What it holds
follows from two lists beside it: the rules accepted since it was last started or stopped, and the
names that it was asked for. A category has the level that the rules give its name, whichever of
the two came first, and lines that are no rules are as good as deleted.
-/

set_option autoImplicit false

namespace Folio.Log

/-- A text that is read whole: none of its lines is cut, and none of its rules names a file. -/
structure Plain (text : Bytes) : Prop where
  short : ∀ line ∈ text.untilNul.splitOn 10, line.length ≤ maxLine
  unquoted : ∀ line ∈ ruleLines false (textLines text),
    (RuleText.ofLine line).target.head? ≠ some 34

theorem Plain.configLines_eq {text : Bytes} (h : Plain text) :
    configLines text = textLines text := by
  refine List.map_congr_left fun line hline => ?_
  rw [List.take_of_length_le (h.short line hline)]

def Malformed (line : Bytes) : Prop :=
  (Bytes.trimBy Bytes.isSpace line).head? ≠ some 91 ∧
    Rule.ofLine? (Bytes.trimBy Bytes.isSpace line) = none

/-- What is left of some lines when malformed ones are deleted. -/
inductive Weeded : List Bytes → List Bytes → Prop
  | nil : Weeded [] []
  | keep (line : Bytes) {lines left : List Bytes} (h : Weeded lines left) :
      Weeded (line :: lines) (line :: left)
  | delete (line : Bytes) {lines left : List Bytes} (malformed : Malformed line)
      (h : Weeded lines left) : Weeded (line :: lines) left

theorem ruleLines_weeded {lines left : List Bytes} (h : Weeded lines left) (inRules : Bool) :
    (ruleLines inRules (left.map (Bytes.trimBy Bytes.isSpace))).Sublist
        (ruleLines inRules (lines.map (Bytes.trimBy Bytes.isSpace))) ∧
      (ruleLines inRules (left.map (Bytes.trimBy Bytes.isSpace))).filterMap Rule.ofLine? =
        (ruleLines inRules (lines.map (Bytes.trimBy Bytes.isSpace))).filterMap Rule.ofLine? := by
  induction h generalizing inRules with
  | nil => exact ⟨List.Sublist.refl _, rfl⟩
  | keep line h ih =>
    rw [List.map_cons, List.map_cons, ruleLines_cons, ruleLines_cons]
    split
    · exact ih _
    split
    · obtain ⟨hsub, hsame⟩ := ih inRules
      rw [List.filterMap_cons, List.filterMap_cons, hsame]
      exact ⟨hsub.cons_cons _, rfl⟩
    · exact ih inRules
  | delete line malformed h ih =>
    rw [List.map_cons, ruleLines_cons, if_neg malformed.1]
    split
    · obtain ⟨hsub, hsame⟩ := ih inRules
      rw [List.filterMap_cons_none malformed.2]
      exact ⟨hsub.cons _, hsame⟩
    · exact ih inRules

theorem Weeded.sublist {lines left : List Bytes} (h : Weeded lines left) :
    left.Sublist lines := by
  induction h with
  | nil => exact List.Sublist.refl _
  | keep line h ih => exact ih.cons_cons line
  | delete line malformed h ih => exact ih.cons line

section Left

variable {text : Bytes} {left : List Bytes} (h : Weeded (text.untilNul.splitOn 10) left)
include h

theorem Weeded.splitOn_join (hne : left ≠ []) :
    (Bytes.join [10] left).untilNul.splitOn 10 = left := by
  have hpiece : ∀ line ∈ left, 10 ∉ line ∧ line ⊆ text.untilNul :=
    fun line hline => Bytes.mem_splitOn (h.sublist.subset hline)
  have hnul : 0 ∉ Bytes.join [10] left :=
    Bytes.notMem_join (by decide) fun line hline hmem =>
      Bytes.nul_notMem_untilNul text ((hpiece line hline).2 hmem)
  rw [Bytes.untilNul_eq_self hnul]
  exact Bytes.splitOn_join (fun line hline => (hpiece line hline).1) hne

theorem Weeded.ruleLines_left (inRules : Bool) :
    ruleLines inRules (textLines (Bytes.join [10] left)) =
      ruleLines inRules (left.map (Bytes.trimBy Bytes.isSpace)) := by
  by_cases hne : left = []
  · rw [hne]
    rfl
  · rw [textLines, h.splitOn_join hne]

theorem Weeded.textRules_eq : textRules (Bytes.join [10] left) = textRules text := by
  rw [textRules, h.ruleLines_left, (ruleLines_weeded h false).2]
  rfl

theorem Weeded.plain (plain : Plain text) : Plain (Bytes.join [10] left) := by
  constructor
  · by_cases hne : left = []
    · rw [hne]
      exact List.forall_mem_singleton.2 (Nat.zero_le maxLine)
    · rw [h.splitOn_join hne]
      exact fun line hline => plain.short line (h.sublist.subset hline)
  · rw [h.ruleLines_left]
    exact fun line hline => plain.unquoted line ((ruleLines_weeded h false).1.subset hline)

end Left

def known (table : List Bytes) : List Bytes :=
  if table = [] then [Registry.defaultName] else table

inductive Call where
  | start
  | stop
  | load (text : Bytes)
  | lookup (name : Option Bytes)

namespace Call

def rulesAfter (rules : List Rule) : Call → List Rule
  | start | stop => []
  | load text => rules ++ textRules text
  | lookup _ => rules

def namesAfter (table : List Bytes) : Call → List Bytes
  | start | lookup none => known table
  | stop | load _ => table
  | lookup (some name) => enter (known table) name.untilNul

def name? : Call → Option Bytes
  | lookup (some name) => some name.untilNul
  | _ => none

/-- The same call, or a load of the text without some malformed lines. -/
inductive Weeded : Call → Call → Prop
  | same (call : Call) : Weeded call call
  | load {text : Bytes} {left : List Bytes} (h : Log.Weeded (text.untilNul.splitOn 10) left) :
      Weeded (load text) (load (Bytes.join [10] left))

theorem Weeded.name?_eq {call left : Call} (h : call.Weeded left) : left.name? = call.name? := by
  cases h <;> rfl

end Call

namespace Registry

def step (r : Registry) : Call → Registry
  | .start => (r.start none).1
  | .stop => r.stop
  | .load text => (r.loadText (some text)).1
  | .lookup name => (r.lookup name).1

def run (calls : List Call) : Registry := calls.foldl step {}

/-- The rules that were accepted since the registry was last started or stopped. -/
def accepted (calls : List Call) : List Rule := calls.foldl Call.rulesAfter []

def entered (calls : List Call) : List Bytes := calls.foldl Call.namesAfter []

/-- A registry that holds what the rules and the names beside it say. -/
structure Follows (rules : List Rule) (table : List Bytes) (r : Registry) : Prop where
  rules_eq : r.rules = rules
  categories_eq : r.categories = table.map (categoryUnder rules)

variable {r : Registry} {rules : List Rule} {table : List Bytes} {name : Bytes}

theorem Follows.names_eq (h : Follows rules table r) : r.names = table := by
  have hname : Category.name ∘ categoryUnder rules = id := funext (categoryUnder_name rules)
  rw [names, h.categories_eq, List.map_map, hname, List.map_id]

theorem follows_applyRules (hrules : r.rules = rules) (hnames : r.names = table) :
    Follows rules table r.applyRules := by
  refine ⟨hrules, ?_⟩
  rw [← hnames, ← hrules, names, List.map_map]
  rfl

theorem ensureDefault_known (hnames : r.names = table) :
    r.ensureDefault.rules = r.rules ∧ r.ensureDefault.names = known table := by
  cases table with
  | nil =>
    have hnil : r.categories = [] := List.map_eq_nil_iff.1 hnames
    rw [ensureDefault_of_nil hnil]
    exact ⟨rfl, congrArg (fun name => [name]) (categoryUnder_name r.rules defaultName)⟩
  | cons first rest =>
    rw [ensureDefault_of_names hnames]
    exact ⟨rfl, hnames⟩

theorem Follows.ensureDefault (h : Follows rules table r) :
    Follows rules (known table) r.ensureDefault := by
  cases table with
  | nil =>
    rw [ensureDefault_of_nil h.categories_eq]
    exact ⟨h.rules_eq, by rw [h.rules_eq]; rfl⟩
  | cons first rest =>
    rw [ensureDefault_of_names h.names_eq]
    exact h

theorem Follows.find (h : Follows rules table r)
    (hshort : ∀ t ∈ enter table name, t.length < nameSize)
    (room : (enter table name).length ≤ maxCategories) :
    Follows rules (enter table name) (r.find name).1 ∧
      (r.find name).2 = (enter table name).idxOf name := by
  have hshort' : ∀ t ∈ table, t.length < nameSize := fun t ht => hshort t (mem_enter.2 (.inl ht))
  have hstored : r.names = table.map stored := by
    rw [h.names_eq, List.map_congr_left fun t ht => stored_eq_self (hshort' t ht)]
    exact (List.map_id' table).symm
  have told : ToldFrom table name := toldFrom_of_short hshort' name
  obtain ⟨hanswer, -⟩ := find_told hstored told room
  refine ⟨?_, hanswer⟩
  by_cases hmem : name ∈ table
  · rw [find_of_mem hstored told hmem, enter, if_pos hmem]
    exact h
  · rw [enter, if_neg hmem, List.length_append] at room
    rw [find_of_notMem hstored told hmem room, enter, if_neg hmem,
      stored_eq_self (hshort name (mem_enter.2 (.inr rfl)))]
    refine ⟨h.rules_eq, ?_⟩
    dsimp only
    rw [h.categories_eq, h.rules_eq, List.map_append]
    rfl

/-- What one call does is what it does to the rules and to the names. -/
theorem Follows.step (h : Follows rules table r) (call : Call)
    (hshort : ∀ t ∈ call.namesAfter table, t.length < nameSize)
    (hnames : (call.namesAfter table).length ≤ maxCategories)
    (hplain : ∀ text, call = .load text → Plain text)
    (hrules : (call.rulesAfter rules).length ≤ maxRules) :
    Follows (call.rulesAfter rules) (call.namesAfter table) (r.step call) := by
  cases call with
  | start =>
    -- The rules are gone but not yet applied, so till then only the names are as they should be.
    obtain ⟨hnone, hknown⟩ := ensureDefault_known (r := r.clearRules) h.names_eq
    exact follows_applyRules hnone hknown
  | stop => exact follows_applyRules rfl h.names_eq
  | load text =>
    have hread := hplain text rfl
    have hroom : (r.rules ++ textRules text).length ≤ maxRules := by
      rw [h.rules_eq]
      exact hrules
    obtain ⟨hadded, hkept⟩ := addRules_eq .ok hread.unquoted hroom
    rw [← hread.configLines_eq] at hadded hkept
    refine follows_applyRules ?_ ?_
    · rw [hadded, h.rules_eq, hread.configLines_eq]
      rfl
    · rw [names, hkept]
      exact h.names_eq
  | lookup name =>
    cases name with
    | none => exact h.ensureDefault
    | some name => exact (h.ensureDefault.find hshort hnames).1

def lookedUp (calls : List Call) : List Bytes := calls.filterMap Call.name?

/-- Calls that stay within the bounds: of the names and their lengths, of the lines that are read
and of the rules in force. -/
structure Within (calls : List Call) : Prop where
  few : (lookedUp calls).toFinset.card < maxCategories
  short : ∀ name ∈ lookedUp calls, name.length < nameSize
  plain : ∀ text, .load text ∈ calls → Plain text
  room : ∀ before, before <+: calls → (accepted before).length ≤ maxRules

variable {before calls weeded : List Call}

theorem Within.of_prefix (h : Within calls) (hbefore : before <+: calls) : Within before := by
  have hnames : lookedUp before ⊆ lookedUp calls := (hbefore.filterMap Call.name?).subset
  have hcard : (lookedUp before).toFinset ⊆ (lookedUp calls).toFinset := fun name hname =>
    List.mem_toFinset.2 (hnames (List.mem_toFinset.1 hname))
  exact ⟨(Finset.card_le_card hcard).trans_lt h.few, fun name hname => h.short name (hnames hname),
    fun text htext => h.plain text (hbefore.subset htext),
    fun earlier hearlier => h.room earlier (hearlier.trans hbefore)⟩

theorem prefix_known (table : List Bytes) : table <+: known table := by
  unfold known
  split
  · next hnil => exact hnil ▸ List.nil_prefix
  · exact List.prefix_rfl

theorem prefix_namesAfter (table : List Bytes) (call : Call) : table <+: call.namesAfter table := by
  rcases call with _ | _ | text | (_ | name)
  · exact prefix_known table
  · exact List.prefix_rfl
  · exact List.prefix_rfl
  · exact prefix_known table
  · exact (prefix_known table).trans (prefix_enter _ _)

theorem entered_append_singleton (calls : List Call) (call : Call) :
    entered (calls ++ [call]) = call.namesAfter (entered calls) := by
  rw [entered, List.foldl_append]
  rfl

theorem accepted_append_singleton (calls : List Call) (call : Call) :
    accepted (calls ++ [call]) = call.rulesAfter (accepted calls) := by
  rw [accepted, List.foldl_append]
  rfl

theorem run_append_singleton (calls : List Call) (call : Call) :
    run (calls ++ [call]) = (run calls).step call := by
  rw [run, List.foldl_append]
  rfl

theorem known_of_prefix {table : List Bytes} (h : [defaultName] <+: table) :
    known table = table := by
  obtain ⟨rest, rfl⟩ := h
  rfl

theorem known_entered (calls : List Call) :
    known (entered calls) = enterAll [defaultName] (lookedUp calls) := by
  induction calls using List.reverseRecOn with
  | nil => rfl
  | append_singleton calls call ih =>
    have hfirst : [defaultName] <+: known (entered calls) := by
      rw [ih]
      exact prefix_enterAll [defaultName] (lookedUp calls)
    rw [entered_append_singleton, lookedUp, List.filterMap_append, enterAll, List.foldl_append]
    show _ = (List.filterMap Call.name? [call]).foldl enter
      (enterAll [defaultName] (lookedUp calls))
    rw [← ih]
    rcases call with _ | _ | text | (_ | name)
    · exact known_of_prefix hfirst
    · rfl
    · rfl
    · exact known_of_prefix hfirst
    · exact known_of_prefix (hfirst.trans (prefix_enter _ _))

theorem prefix_entered (h : before <+: calls) : entered before <+: entered calls := by
  obtain ⟨rest, rfl⟩ := h
  induction rest using List.reverseRecOn with
  | nil => simp
  | append_singleton rest call ih =>
    rw [← List.append_assoc, entered_append_singleton]
    exact ih.trans (prefix_namesAfter _ call)

theorem Within.entered_short (h : Within calls) : ∀ t ∈ entered calls, t.length < nameSize := by
  intro t ht
  have hknown := (prefix_known _).subset ht
  rw [known_entered, mem_enterAll] at hknown
  exact hknown.elim (short_default t) (h.short t)

theorem Within.entered_room (h : Within calls) : (entered calls).length ≤ maxCategories := by
  have hlength := (prefix_known (entered calls)).length_le
  rw [known_entered] at hlength
  exact hlength.trans ((length_enterAll_le defaultName (lookedUp calls)).trans h.few)

/-- After all calls the registry holds what the accepted rules and the names looked up say. -/
theorem run_follows (h : Within calls) : Follows (accepted calls) (entered calls) (run calls) := by
  induction calls using List.reverseRecOn with
  | nil => exact ⟨rfl, rfl⟩
  | append_singleton calls call ih =>
    have hshort := h.entered_short
    have hnames := h.entered_room
    have hrules := h.room _ List.prefix_rfl
    rw [entered_append_singleton] at hshort hnames
    rw [accepted_append_singleton] at hrules
    rw [entered_append_singleton, accepted_append_singleton, run_append_singleton]
    -- What holds before the last call is within the bounds, as they hold of each part of a run.
    refine (ih (h.of_prefix (List.prefix_append calls [call]))).step call hshort hnames ?_ hrules
    exact fun text htext => h.plain text (by simp [htext])

def named (name : Option Bytes) : Bytes := (name.map Bytes.untilNul).getD defaultName

theorem lookup_answer {name : Option Bytes} (h : Within (before ++ [.lookup name])) :
    named name ∈ entered (before ++ [.lookup name]) ∧
      ((run before).lookup name).2 = (entered (before ++ [.lookup name])).idxOf (named name) := by
  have hfollows := run_follows (h.of_prefix (List.prefix_append before [.lookup name]))
  have hfirst : [defaultName] <+: known (entered before) := by
    rw [known_entered]
    exact prefix_enterAll [defaultName] (lookedUp before)
  have hshort := h.entered_short
  have hroom := h.entered_room
  rw [entered_append_singleton] at hshort hroom ⊢
  cases name with
  | none =>
    obtain ⟨rest, hrest⟩ := hfirst
    show defaultName ∈ known (entered before) ∧ 0 = (known (entered before)).idxOf defaultName
    rw [← hrest]
    exact ⟨List.mem_cons_self, by simp⟩
  | some name =>
    exact ⟨mem_enter.2 (.inr rfl), (hfollows.ensureDefault.find hshort hroom).2⟩

section Weeding

variable (h : List.Forall₂ Call.Weeded calls weeded)
include h

theorem foldl_weeded {σ : Type} {f : σ → Call → σ}
    (hf : ∀ state call left, Call.Weeded call left → f state left = f state call) (start : σ) :
    weeded.foldl f start = calls.foldl f start := by
  induction h generalizing start with
  | nil => rfl
  | cons hcall _ ih => rw [List.foldl_cons, List.foldl_cons, hf _ _ _ hcall, ih]

theorem accepted_weeded : accepted weeded = accepted calls := by
  refine foldl_weeded h (fun rules call left hcall => ?_) []
  cases hcall with
  | same => rfl
  | load hleft => exact congrArg (rules ++ ·) hleft.textRules_eq

theorem entered_weeded : entered weeded = entered calls := by
  refine foldl_weeded h (fun table call left hcall => ?_) []
  cases hcall <;> rfl

theorem lookedUp_weeded : lookedUp weeded = lookedUp calls := by
  induction h with
  | nil => rfl
  | cons hcall _ ih =>
    have hname := hcall.name?_eq
    unfold lookedUp at ih ⊢
    rw [List.filterMap_cons, List.filterMap_cons, hname, ih]

theorem exists_mem_of_weeded {left : Call} (hleft : left ∈ weeded) :
    ∃ call ∈ calls, Call.Weeded call left := by
  induction h with
  | nil => exact absurd hleft List.not_mem_nil
  | @cons call _ _ _ hcall _ ih =>
    rcases List.mem_cons.1 hleft with rfl | hleft
    · exact ⟨call, List.mem_cons_self, hcall⟩
    · obtain ⟨earlier, hmem, hcalls⟩ := ih hleft
      exact ⟨earlier, List.mem_cons_of_mem call hmem, hcalls⟩

theorem Within.of_weeded (within : Within calls) : Within weeded := by
  constructor
  · rw [lookedUp_weeded h]
    exact within.few
  · rw [lookedUp_weeded h]
    exact within.short
  · intro text htext
    obtain ⟨call, hcall, hload⟩ := exists_mem_of_weeded h htext
    cases hload with
    | same => exact within.plain text hcall
    | load hleft => exact hleft.plain (within.plain _ hcall)
  · intro before hbefore
    rw [List.prefix_iff_eq_take.1 hbefore,
      accepted_weeded (List.forall₂_take before.length h)]
    exact within.room _ (List.take_prefix _ _)

end Weeding

/-- Every category has the level of the last rule in force that covers its name, the answers to
look-ups are the categories of their names, a text may be weeded of its malformed lines, and what
a text adds are the rules that it writes. -/
theorem run_levels (h : Within calls) :
    (∀ c ∈ (run calls).categories, ∀ level,
      LevelUnder (accepted calls) c.name level ↔ c.level = level) ∧
    (∀ before name, before ++ [.lookup name] <+: calls →
      ∃ c, (run calls).category? ((run before).lookup name).2 = some c ∧ c.name = named name) ∧
    (∀ weeded, List.Forall₂ Call.Weeded calls weeded →
      (run weeded).categories = (run calls).categories) ∧
    ∀ text rules, Adds false (textLines text) rules ↔ textRules text = rules := by
  have hfollows := run_follows h
  refine ⟨fun c hc level => ?_, fun before name hbefore => ?_, fun weeded hweeded => ?_,
    fun text rules => adds_iff⟩
  · rw [hfollows.categories_eq] at hc
    obtain ⟨name, -, rfl⟩ := List.mem_map.1 hc
    rw [categoryUnder_name]
    exact levelUnder_iff
  · obtain ⟨hmem, hanswer⟩ := lookup_answer (h.of_prefix hbefore)
    have hentered := prefix_entered hbefore
    refine ⟨categoryUnder (accepted calls) (named name), ?_, categoryUnder_name _ _⟩
    rw [category?, hanswer, hentered.idxOf_eq_of_mem hmem, hfollows.categories_eq,
      List.getElem?_map, List.getElem?_idxOf (hentered.subset hmem)]
    rfl
  · rw [(run_follows (h.of_weeded hweeded)).categories_eq, hfollows.categories_eq,
      accepted_weeded hweeded, entered_weeded hweeded]

def interleaved (text : Bytes) : List Call :=
  [.lookup (some (utf8 "net.tcp")), .load text, .lookup (some (utf8 "net"))]

def spoilt : Bytes := utf8 "[rules]\nnet.*.debug >stdout\nbogus\n"

theorem spoilt_lines : spoilt.untilNul.splitOn 10 =
    [utf8 "[rules]", utf8 "net.*.debug >stdout", utf8 "bogus", []] := by
  decide +kernel

theorem interleaved_within : Within (interleaved spoilt) := by
  refine ⟨by decide, by decide, fun text htext => ?_, fun before hbefore => ?_⟩
  · obtain rfl : text = spoilt := by simpa [interleaved] using htext
    exact ⟨by decide +kernel, by decide +kernel⟩
  · have hrooms : ∀ before ∈ (interleaved spoilt).inits, (accepted before).length ≤ maxRules := by
      decide +kernel
    exact hrooms before ((List.mem_inits _ _).2 hbefore)

theorem interleaved_levels :
    Within (interleaved spoilt) ∧
      (run (interleaved spoilt)).categories =
        [⟨defaultName, 80, .stderr⟩, ⟨utf8 "net.tcp", 20, .stdout⟩, ⟨utf8 "net", 20, .stdout⟩] ∧
      (∀ c ∈ (run (interleaved spoilt)).categories, ∀ level,
        LevelUnder (accepted (interleaved spoilt)) c.name level ↔ c.level = level) ∧
      (run (interleaved (utf8 "[rules]\nnet.*.debug >stdout\n"))).categories =
        (run (interleaved spoilt)).categories := by
  obtain ⟨hlevels, -, hweeded, -⟩ := run_levels interleaved_within
  have hbogus : Malformed (utf8 "bogus") := ⟨by decide +kernel, by decide +kernel⟩
  have hleft : Weeded (spoilt.untilNul.splitOn 10)
      [utf8 "[rules]", utf8 "net.*.debug >stdout", []] := by
    rw [spoilt_lines]
    exact .keep _ (.keep _ (.delete _ hbogus (.keep _ .nil)))
  have hcalls := hweeded _ (.cons (.same _) (.cons (.load hleft) (.cons (.same _) .nil)))
  exact ⟨interleaved_within, by decide +kernel, hlevels, hcalls⟩

end Registry

end Folio.Log
