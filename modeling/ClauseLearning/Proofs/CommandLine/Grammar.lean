import Mathlib
import ClauseLearning.Proofs.CommandLine.Faults

/-!
# The grammar of the command line

Arguments stand in groups: an option, with a value if it takes one, or a file name. They are accepted
if they can be cut into valid groups from left to right, with one file name at most. Then the last
group of each name counts, so groups of different names may change places.
-/

namespace ClauseLearning.CommandLine

/-! ## Groups of arguments -/

inductive Group where
  | help
  | setting (setting : Setting) (text : String)
  | file (path : String)
  deriving DecidableEq, Repr

namespace Group

/-- The arguments that the group is made of. -/
def arguments : Group → List String
  | help => ["--help"]
  | setting s text => [s.name, text]
  | file path => [path]

/-- The name of the option. A file name stands without one. -/
def name? : Group → Option String
  | help => some "--help"
  | setting s _ => some s.name
  | file _ => none

/-- The text that the group has for a setting, if it is about this setting. -/
def text? (s : Setting) : Group → Option String
  | setting s' text => if s' = s then some text else none
  | _ => none

/-- The value is right for its setting, and a file name does not look like an option. A value may
look like anything. -/
def Valid : Group → Prop
  | help => True
  | setting s text => ∃ v, s.Denotes text v
  | file path => path.startsWith "--" = false

instance : (g : Group) → Decidable g.Valid
  | help => .isTrue trivial
  | setting s text => inferInstanceAs (Decidable (∃ v, s.Denotes text v))
  | file path => inferInstanceAs (Decidable (path.startsWith "--" = false))

end Group

/-- The text of the last group that is about the setting. -/
def lastText? (groups : List Group) (s : Setting) : Option String :=
  (groups.filterMap (Group.text? s)).getLast?

/-- The groups are valid, and they name one file at most. -/
structure Grammatical (groups : List Group) : Prop where
  valid : ∀ g ∈ groups, g.Valid
  oneFile : groups.countP (·.name? = none) ≤ 1

instance (groups : List Group) : Decidable (Grammatical groups) :=
  decidable_of_iff ((∀ g ∈ groups, g.Valid) ∧ groups.countP (·.name? = none) ≤ 1)
    ⟨fun h => ⟨h.1, h.2⟩, fun h => ⟨h.valid, h.oneFile⟩⟩

/-- The options are those that the groups ask for. A setting has the value that the text of the last
group about it stands for, or its default if there is none. -/
structure Options.Reflects (o : Options) (groups : List Group) : Prop where
  get_last : ∀ s text, lastText? groups s = some text → s.Denotes text (o.get s)
  get_default : ∀ s, lastText? groups s = none → o.get s = s.default
  seedGiven : o.seedGiven = true ↔ ∃ text, .setting .seed text ∈ groups
  path : ∀ path, o.path = some path ↔ .file path ∈ groups
  help : o.help = true ↔ .help ∈ groups

/-- What stands behind the groups begins with one that cannot be formed or is not valid, and the
failure that this is. -/
inductive Offence (groups : List Group) : List String → Failure OptionError → Prop
  | unknownOption {name : String} {rest : List String} : name.startsWith "--" = true →
      name ≠ "--help" → (∀ s : Setting, name ≠ s.name) →
      Offence groups (name :: rest) (.error (.unknownOption name))
  | missingValue (s : Setting) : Offence groups [s.name] (.error (.missingValue s.name))
  | misread {s : Setting} {text : String} {rest : List String} {e : Failure OptionError} :
      s.Misread text e → Offence groups (s.name :: text :: rest) e
  | secondFile {path first : String} {rest : List String} : path.startsWith "--" = false →
      .file first ∈ groups → Offence groups (path :: rest) (.error (.unexpectedArgument path))

/-- The same groups, those of one name in the same order. -/
def Rearranged (groups groups' : List Group) : Prop :=
  groups.Perm groups' ∧
    ∀ name?, groups.filter (·.name? = name?) = groups'.filter (·.name? = name?)

variable {groups groups' : List Group} {g g' : Group} {o o' : Options} {s s' : Setting}
  {text : String} {arguments rest rest' : List String} {e : Failure OptionError}

/-- Only the names that occur have to be looked at. -/
theorem rearranged_iff : Rearranged groups groups' ↔ groups.Perm groups' ∧
    ∀ g ∈ groups, groups.filter (·.name? = g.name?) = groups'.filter (·.name? = g.name?) := by
  constructor
  · exact fun h => ⟨h.1, fun g _ => h.2 g.name?⟩
  · rintro ⟨hperm, hfilter⟩
    refine ⟨hperm, fun name? => ?_⟩
    by_cases hname : ∃ g ∈ groups, g.name? = name?
    · obtain ⟨g, hg, rfl⟩ := hname
      exact hfilter g hg
    · have hnone : groups.filter (·.name? = name?) = [] :=
        List.filter_eq_nil_iff.2 fun g hg hsame => hname ⟨g, hg, of_decide_eq_true hsame⟩
      have hfiltered := hperm.filter (·.name? = name?)
      rw [hnone, List.nil_perm] at hfiltered
      rw [hnone, hfiltered]

instance : Decidable (Rearranged groups groups') := decidable_of_iff' _ rearranged_iff

/-! ## What groups ask for -/

theorem Group.text?_self (s : Setting) (text : String) : (setting s text).text? s = some text :=
  if_pos rfl

theorem Group.text?_other (h : s ≠ s') (text : String) : (setting s text).text? s' = none :=
  if_neg h

theorem Group.text?_of_ne (h : g.name? ≠ some s.name) : g.text? s = none := by
  cases g with
  | help | file _ => rfl
  | setting s' text =>
      refine text?_other ?_ text
      rintro rfl
      exact h rfl

/-- Only the groups of its name count for a setting. -/
theorem lastText?_filter (groups : List Group) (s : Setting) :
    lastText? (groups.filter (·.name? = some s.name)) s = lastText? groups s := by
  have htext : (fun g : Group => if g.name? = some s.name then g.text? s else none) =
      Group.text? s := by
    funext g
    split
    · rfl
    · exact (Group.text?_of_ne ‹_›).symm
  simp only [lastText?, List.filterMap_filter, decide_eq_true_eq, htext]

theorem lastText?_concat_of_some (h : g.text? s = some text) :
    lastText? (groups ++ [g]) s = some text := by
  simp [lastText?, h]

theorem lastText?_concat_of_none (h : g.text? s = none) :
    lastText? (groups ++ [g]) s = lastText? groups s := by
  simp [lastText?, h]

theorem Rearranged.lastText?_eq (h : Rearranged groups groups') (s : Setting) :
    lastText? groups' s = lastText? groups s := by
  rw [← lastText?_filter groups', ← h.2, lastText?_filter]

namespace Options.Reflects

theorem nil : Options.initial.Reflects [] where
  get_last _ _ := nofun
  get_default s _ := get_initial s
  seedGiven := by simp [Options.initial]
  path := by simp [Options.initial]
  help := by simp [Options.initial]

theorem unique (h : o.Reflects groups) (h' : o'.Reflects groups) : o = o' := by
  apply Options.ext_get
  · intro s
    cases htext : lastText? groups s with
    | none => rw [h.get_default s htext, h'.get_default s htext]
    | some text => exact (h.get_last s text htext).unique (h'.get_last s text htext)
  · rw [Bool.eq_iff_iff, h.seedGiven, h'.seedGiven]
  · exact Option.ext fun path => (h.path path).trans (h'.path path).symm
  · rw [Bool.eq_iff_iff, h.help, h'.help]

theorem help_concat (h : o.Reflects groups) :
    { o with help := true }.Reflects (groups ++ [Group.help]) where
  get_last s text htext := h.get_last s text (by rwa [lastText?_concat_of_none rfl] at htext)
  get_default s htext := h.get_default s (by rwa [lastText?_concat_of_none rfl] at htext)
  seedGiven := by simp [h.seedGiven]
  path := by simp [h.path]
  help := by simp

theorem setting_concat (h : o.Reflects groups) {v : s.Value} (hv : s.Denotes text v) :
    (o.put s v).Reflects (groups ++ [Group.setting s text]) where
  get_last s' text' htext' := by
    by_cases hs : s = s'
    · subst hs
      rw [lastText?_concat_of_some (Group.text?_self s text)] at htext'
      cases htext'
      rwa [get_put_self]
    · rw [lastText?_concat_of_none (Group.text?_other hs text)] at htext'
      rw [get_put_of_ne o (Ne.symm hs)]
      exact h.get_last s' text' htext'
  get_default s' htext' := by
    by_cases hs : s = s'
    · subst hs
      rw [lastText?_concat_of_some (Group.text?_self s text)] at htext'
      cases htext'
    · rw [lastText?_concat_of_none (Group.text?_other hs text)] at htext'
      rw [get_put_of_ne o (Ne.symm hs), h.get_default s' htext']
  seedGiven := by
    rw [seedGiven_put, h.seedGiven]
    simp [exists_or, or_comm, eq_comm]
  path := by simp [h.path]
  help := by simp [h.help]

theorem file_concat (h : o.Reflects groups) (hpath : o.path = none) (path : String) :
    { o with path := some path }.Reflects (groups ++ [Group.file path]) where
  get_last s text htext := h.get_last s text (by rwa [lastText?_concat_of_none rfl] at htext)
  get_default s htext := h.get_default s (by rwa [lastText?_concat_of_none rfl] at htext)
  seedGiven := by simp [h.seedGiven]
  path path' := by
    have hnone : .file path' ∉ groups := by
      rw [← h.path, hpath]
      simp
    simp [hnone, eq_comm]
  help := by simp [h.help]

theorem path_eq_none (h : o.Reflects groups) (hfile : ∀ path, .file path ∉ groups) :
    o.path = none := by
  rw [Option.eq_none_iff_forall_ne_some]
  intro path hpath
  exact hfile path ((h.path path).1 hpath)

theorem concat (h : o.Reflects groups) (hg : g.Valid)
    (hfile : g.name? = none → ∀ path, .file path ∉ groups) :
    ∃ o' : Options, o'.Reflects (groups ++ [g]) ∧
      ∀ rest, o.extend (g.arguments ++ rest) = o'.extend rest := by
  cases g with
  | help => exact ⟨_, h.help_concat, extend_help o⟩
  | setting s text =>
      obtain ⟨v, hv⟩ := hg
      refine ⟨_, h.setting_concat hv, fun rest => ?_⟩
      rw [Group.arguments, List.cons_append, List.cons_append, List.nil_append, extend_setting,
        set_of_denotes hv]
      rfl
  | file path =>
      have hpath : o.path = none := h.path_eq_none (hfile rfl)
      exact ⟨_, h.file_concat hpath path, extend_path hg hpath⟩

/-- Groups in another order ask for the same, if those of one name keep theirs. -/
theorem rearranged (h : o.Reflects groups) (hr : Rearranged groups groups') :
    o.Reflects groups' where
  get_last s text htext := h.get_last s text (hr.lastText?_eq s ▸ htext)
  get_default s htext := h.get_default s (hr.lastText?_eq s ▸ htext)
  seedGiven := by simp only [h.seedGiven, hr.1.mem_iff]
  path path := by rw [h.path, hr.1.mem_iff]
  help := by rw [h.help, hr.1.mem_iff]

end Options.Reflects

/-! ## Cutting arguments into groups -/

theorem Group.not_valid_help : ¬ (file "--help").Valid := by
  simp [Valid, startsWith_help]

theorem Group.not_valid_name (s : Setting) : ¬ (file s.name).Valid := by
  simp [Valid, s.startsWith_name]

theorem Group.Valid.arguments_append_inj (h : g.Valid) (h' : g'.Valid)
    (heq : g.arguments ++ rest = g'.arguments ++ rest') : g = g' ∧ rest = rest' := by
  cases g with
  | help =>
      cases g' with
      | help => exact ⟨rfl, List.tail_eq_of_cons_eq heq⟩
      | setting s' _ => exact absurd (List.head_eq_of_cons_eq heq).symm s'.name_ne_help
      | file path' =>
          cases List.head_eq_of_cons_eq heq
          exact absurd h' Group.not_valid_help
  | setting s text =>
      cases g' with
      | help => exact absurd (List.head_eq_of_cons_eq heq) s.name_ne_help
      | setting s' text' =>
          cases Setting.name_injective (List.head_eq_of_cons_eq heq)
          cases List.tail_eq_of_cons_eq heq
          exact ⟨rfl, rfl⟩
      | file path' =>
          cases List.head_eq_of_cons_eq heq
          exact absurd h' (Group.not_valid_name s)
  | file path =>
      cases g' with
      | help =>
          cases List.head_eq_of_cons_eq heq
          exact absurd h Group.not_valid_help
      | setting s' _ =>
          cases List.head_eq_of_cons_eq heq
          exact absurd h (Group.not_valid_name s')
      | file path' =>
          cases heq
          exact ⟨rfl, rfl⟩

theorem eq_of_flatMap_arguments (h : ∀ g ∈ groups, g.Valid) (h' : ∀ g ∈ groups', g.Valid)
    (heq : groups.flatMap Group.arguments = groups'.flatMap Group.arguments) : groups = groups' := by
  induction groups generalizing groups' with
  | nil =>
      cases groups' with
      | nil => rfl
      | cons g' groups' => cases g' <;> cases heq
  | cons g groups ih =>
      cases groups' with
      | nil => cases g <;> cases heq
      | cons g' groups' =>
          rw [List.forall_mem_cons] at h h'
          obtain ⟨rfl, hrest⟩ := h.1.arguments_append_inj h'.1 heq
          rw [ih h.2 h'.2 hrest]

namespace Grammatical

theorem nil : Grammatical [] where
  valid := by simp
  oneFile := by simp

theorem concat_iff : Grammatical (groups ++ [g]) ↔
    Grammatical groups ∧ g.Valid ∧ (g.name? = none → ∀ path, .file path ∉ groups) := by
  have hfile : groups.countP (·.name? = none) = 0 ↔ ∀ path, .file path ∉ groups := by
    rw [List.countP_eq_zero]
    constructor
    · intro hnone path hpath
      exact hnone _ hpath (by simp [Group.name?])
    · intro hnone g hg
      cases g with
      | help | setting _ _ => simp [Group.name?]
      | file path => exact absurd hg (hnone path)
  constructor
  · intro h
    have hone := h.oneFile
    rw [List.countP_append] at hone
    have hvalid := List.forall_mem_append.1 h.valid
    refine ⟨⟨hvalid.1, by omega⟩, hvalid.2 g (List.mem_singleton_self g), fun hg => hfile.1 ?_⟩
    rw [List.countP_singleton, if_pos (by simpa using hg)] at hone
    omega
  · rintro ⟨h, hg, hnone⟩
    refine ⟨List.forall_mem_append.2 ⟨h.valid, List.forall_mem_singleton.2 hg⟩, ?_⟩
    rw [List.countP_append, List.countP_singleton]
    split
    · rename_i hname
      rw [hfile.2 (hnone (by simpa using hname))]
    · exact h.oneFile

theorem rearranged (h : Grammatical groups) (hr : Rearranged groups groups') :
    Grammatical groups' where
  valid g hg := h.valid g (hr.1.mem_iff.2 hg)
  oneFile := by
    rw [← hr.1.countP_eq]
    exact h.oneFile

/-- Groups are read one by one, whatever stands behind them. -/
theorem parse (h : Grammatical groups) : ∃ o : Options, o.Reflects groups ∧
    ∀ rest, Options.parse (groups.flatMap Group.arguments ++ rest) = o.extend rest := by
  induction groups using List.reverseRecOn with
  | nil => exact ⟨_, .nil, fun _ => rfl⟩
  | append_singleton groups g ih =>
      obtain ⟨hgroups, hg, hfile⟩ := concat_iff.1 h
      obtain ⟨o, hreflects, hparse⟩ := ih hgroups
      obtain ⟨o', hreflects', hextend⟩ := hreflects.concat hg hfile
      refine ⟨o', hreflects', fun rest => ?_⟩
      rw [List.flatMap_append, List.flatMap_singleton, List.append_assoc, hparse, hextend]

/-- What stands behind groups begins with another one, or is an offence. -/
theorem next (h : Grammatical groups) (rest : List String) : rest = [] ∨
    (∃ g rest', rest = g.arguments ++ rest' ∧ Grammatical (groups ++ [g])) ∨
      ∃ e, Offence groups rest e := by
  cases rest with
  | nil => exact .inl rfl
  | cons argument rest =>
      right
      cases hdash : argument.startsWith "--" with
      | false =>
          by_cases hfile : ∃ first, .file first ∈ groups
          · obtain ⟨first, hfirst⟩ := hfile
            exact .inr ⟨_, .secondFile hdash hfirst⟩
          · exact .inl ⟨.file argument, rest, rfl, concat_iff.2 ⟨h, hdash, fun _ => not_exists.1 hfile⟩⟩
      | true =>
          by_cases hhelp : argument = "--help"
          · exact .inl ⟨.help, rest, by rw [hhelp]; rfl, concat_iff.2 ⟨h, trivial, nofun⟩⟩
          · by_cases hname : ∃ s : Setting, argument = s.name
            · obtain ⟨s, rfl⟩ := hname
              cases rest with
              | nil => exact .inr ⟨_, .missingValue s⟩
              | cons text rest =>
                  by_cases hvalid : (Group.setting s text).Valid
                  · exact .inl ⟨.setting s text, rest, rfl, concat_iff.2 ⟨h, hvalid, nofun⟩⟩
                  · obtain ⟨e, he⟩ := Setting.exists_misread (not_exists.1 hvalid)
                    exact .inr ⟨e, .misread he⟩
            · exact .inr ⟨_, .unknownOption hdash hhelp (not_exists.1 hname)⟩

/-- Arguments are groups up to their end or up to the first offence. -/
theorem exists_cut {groups : List Group} (h : Grammatical groups) (rest : List String) :
    ∃ groups' rest', Grammatical groups' ∧ groups'.flatMap Group.arguments ++ rest' =
        groups.flatMap Group.arguments ++ rest ∧
      (rest' = [] ∨ ∃ e, Offence groups' rest' e) := by
  obtain hrest | ⟨g, later, hrest, hnext⟩ | hoffence := h.next rest
  · exact ⟨groups, rest, h, rfl, .inl hrest⟩
  · have hlength : later.length < rest.length := by
      rw [hrest]
      cases g <;> simp [Group.arguments]
    obtain ⟨groups', rest', hgroups', hcut, hend⟩ := exists_cut hnext later
    refine ⟨groups', rest', hgroups', ?_, hend⟩
    rw [hcut, hrest, List.flatMap_append, List.flatMap_singleton, List.append_assoc]
  · exact ⟨groups, rest, h, rfl, .inr hoffence⟩
termination_by rest.length

end Grammatical

/-- The first offence decides how the reading fails. -/
theorem Offence.extend (h : Offence groups rest e) (ho : o.Reflects groups) :
    o.extend rest = .error e := by
  cases h with
  | @unknownOption name rest hdash hhelp hname =>
      have hnone : Setting.ofName? name = none := by
        rw [Option.eq_none_iff_forall_ne_some]
        intro s hs
        exact hname s (Setting.name_of_ofName? hs).symm
      rw [Options.extend.eq_def]
      simp only [hdash, hhelp, hnone, if_true, if_false]
  | missingValue s =>
      rw [Options.extend.eq_def]
      simp only [s.startsWith_name, s.name_ne_help, s.ofName?_name, if_true, if_false]
  | misread he =>
      rw [Options.extend_setting, Options.set_of_misread he]
      rfl
  | secondFile hdash hfirst =>
      rw [Options.extend.eq_def]
      simp [hdash, (ho.path _).2 hfirst]

/-! ## Reading -/

namespace Options

theorem parse_groups (h : Grammatical groups) (ho : o.Reflects groups) :
    parse (groups.flatMap Group.arguments) = .ok o := by
  obtain ⟨o', ho', hparse⟩ := h.parse
  rw [ho.unique ho', ← List.append_nil (groups.flatMap Group.arguments), hparse]
  rfl

theorem parse_offence (h : Grammatical groups) (he : Offence groups rest e) :
    parse (groups.flatMap Group.arguments ++ rest) = .error e := by
  obtain ⟨o, ho, hparse⟩ := h.parse
  rw [hparse, he.extend ho]

/-- Arguments are groups, or groups and then an offence. -/
theorem exists_groups_or_offence (arguments : List String) : ∃ groups rest, Grammatical groups ∧
    groups.flatMap Group.arguments ++ rest = arguments ∧
      (rest = [] ∨ ∃ e, Offence groups rest e) :=
  Grammatical.nil.exists_cut arguments

theorem parse_eq_ok_iff : parse arguments = .ok o ↔ ∃ groups, Grammatical groups ∧
    groups.flatMap Group.arguments = arguments ∧ o.Reflects groups := by
  constructor
  · intro hparse
    obtain ⟨groups, rest, hgroups, rfl, rfl | ⟨e, he⟩⟩ := exists_groups_or_offence arguments
    · obtain ⟨o', ho', -⟩ := hgroups.parse
      rw [List.append_nil, parse_groups hgroups ho'] at hparse
      cases hparse
      exact ⟨groups, hgroups, (List.append_nil _).symm, ho'⟩
    · rw [parse_offence hgroups he] at hparse
      cases hparse
  · rintro ⟨groups, hgroups, rfl, ho⟩
    exact parse_groups hgroups ho

theorem parse_eq_error_iff : parse arguments = .error e ↔ ∃ groups rest, Grammatical groups ∧
    groups.flatMap Group.arguments ++ rest = arguments ∧ Offence groups rest e := by
  constructor
  · intro hparse
    obtain ⟨groups, rest, hgroups, rfl, rfl | ⟨e', he'⟩⟩ := exists_groups_or_offence arguments
    · obtain ⟨o, ho, -⟩ := hgroups.parse
      rw [List.append_nil, parse_groups hgroups ho] at hparse
      cases hparse
    · rw [parse_offence hgroups he'] at hparse
      cases hparse
      exact ⟨groups, rest, hgroups, rfl, he'⟩
  · rintro ⟨groups, rest, hgroups, rfl, he⟩
    exact parse_offence hgroups he

end Options

/-- Arguments are read if they are grammatical groups, which they are in one way only. Then the
options are those that the groups ask for, in whatever order groups of different names stand. Where
the arguments are not read, the failure is that of the first group that is none. -/
theorem parse_follows_grammar :
    (∀ (arguments : List String) (o : Options), Options.parse arguments = .ok o ↔
      ∃ groups, Grammatical groups ∧ groups.flatMap Group.arguments = arguments ∧
        o.Reflects groups) ∧
    (∀ groups, Grammatical groups → ∃ o : Options, o.Reflects groups ∧
      ∀ groups', Rearranged groups groups' →
        Options.parse (groups'.flatMap Group.arguments) = .ok o) ∧
    (∀ groups groups', Grammatical groups → Grammatical groups' →
      groups.flatMap Group.arguments = groups'.flatMap Group.arguments → groups = groups') ∧
    (∀ (arguments : List String) (e : Failure OptionError),
      Options.parse arguments = .error e ↔ ∃ groups rest, Grammatical groups ∧
        groups.flatMap Group.arguments ++ rest = arguments ∧ Offence groups rest e) := by
  refine ⟨fun _ _ => Options.parse_eq_ok_iff, fun groups h => ?_, fun groups groups' h h' => ?_,
    fun _ _ => Options.parse_eq_error_iff⟩
  · obtain ⟨o, ho, -⟩ := h.parse
    exact ⟨o, ho, fun groups' hr => Options.parse_groups (h.rearranged hr) (ho.rearranged hr)⟩
  · exact eq_of_flatMap_arguments h.valid h'.valid

namespace Sample

def ordered : List Group :=
  [.setting .seed "1", .setting .restart "luby:7", .file "in.cnf", .setting .decay "0.5",
    .setting .seed "2", .help, .setting .timeout "1.5", .setting .polarity "saved"]

def reordered : List Group :=
  [.help, .setting .polarity "saved", .setting .timeout "1.5", .setting .seed "1",
    .setting .seed "2", .setting .decay "0.5", .setting .restart "luby:7", .file "in.cnf"]

end Sample

/-- The later of two seeds counts, in both orders. Where a mode should stand, an option is none. -/
theorem parse_in_two_orders : ∃ o : Options,
    o.settings.restart = .luby 7 ∧ o.settings.polarity = .saved ∧ o.settings.decay = 0.5 ∧
    o.settings.seed = 2 ∧ o.settings.timeLimit = some ⟨1500000000⟩ ∧ o.seedGiven = true ∧
    o.path = some "in.cnf" ∧ o.help = true ∧
    Options.parse ["--seed", "1", "--restart", "luby:7", "in.cnf", "--decay", "0.5", "--seed", "2",
      "--help", "--timeout", "1.5", "--polarity", "saved"] = .ok o ∧
    Options.parse ["--help", "--polarity", "saved", "--timeout", "1.5", "--seed", "1", "--seed", "2",
      "--decay", "0.5", "--restart", "luby:7", "in.cnf"] = .ok o ∧
    Options.parse ["--seed", "1", "--polarity", "--help", "--seed"] =
      .error (.error (.invalidPolicy "--polarity" (.polarity ⟨"--help"⟩))) := by
  obtain ⟨-, hparse, -, herror⟩ := parse_follows_grammar
  obtain ⟨o, ho, hall⟩ := hparse Sample.ordered (by decide +kernel)
  have hvalue : ∀ (s : Setting) (text : String) (v : s.Value),
      lastText? Sample.ordered s = some text → s.read? text = some v → o.get s = v :=
    fun s text v htext hread =>
      (ho.get_last s text htext).unique (Setting.read?_eq_some_iff.1 hread)
  refine ⟨o, hvalue .restart "luby:7" _ rfl (by decide +kernel),
    hvalue .polarity "saved" _ rfl (by decide +kernel),
    hvalue .decay "0.5" _ rfl (by decide +kernel), hvalue .seed "2" _ rfl (by decide +kernel),
    hvalue .timeout "1.5" _ rfl (by decide +kernel), ho.seedGiven.2 ⟨"1", ?_⟩, (ho.path _).2 ?_,
    ho.help.2 ?_, hall Sample.ordered ⟨.refl _, fun _ => rfl⟩, hall Sample.reordered ?_,
    (herror _ _).2 ?_⟩
  · simp [Sample.ordered]
  · simp [Sample.ordered]
  · simp [Sample.ordered]
  · decide +kernel
  · refine ⟨[.setting .seed "1"], ["--polarity", "--help", "--seed"], by decide +kernel, rfl, ?_⟩
    refine .misread (s := .polarity) (.mode fun mode => ?_)
    cases mode <;> decide

end ClauseLearning.CommandLine
