/-
Module: EvalCharts.Proofs.CommandLine.Literals
Purpose: Which argument lists the check rejects. What has been read of an argument list reflects the
  literals in it, so the check finds a number that is not finite just where a literal denotes one.
Main exports: supplied, readOptions, NonFinite, SuppliesNonFinite, Reader.step_cases, Reflects,
  Reflects.foldlM, exists_not_finite_iff, check_of_readOptions, Comparable, parse_finite
-/
import EvalCharts.Proofs.CommandLine.Values
import EvalCharts.Proofs.View.Filters

namespace EvalCharts.CommandLine

/-! ### What is supplied -/

/-- The options of an argument list with their values, from left to right. The value of an option that is
    `open?` is the next argument. -/
def supplied : Option Setting → List String → List (Setting × String)
  | _, [] => []
  | some setting, text :: rest => (setting, text) :: supplied none rest
  | none, text :: rest =>
    match Argument.ofText text with
    | .option setting (some value) => (setting, value) :: supplied none rest
    | .option setting none => supplied (some setting) rest
    | _ => supplied none rest

/-- Read an argument list without checking what it asks for. -/
def readOptions (arguments : List String) : Except Refusal Config := do
  let reader ← arguments.foldlM Reader.step .start
  let reader ← reader.settle.mapError .usage
  return reader.config

/-- The literal denotes a NaN or an infinity. -/
def NonFinite (literal : List Char) : Prop :=
  ∃ x, Double.read literal = .ok x ∧ x.isFinite = false

/-- One of the literals that an option is given denotes a NaN or an infinity. -/
def SuppliesNonFinite (arguments : List String) (setting : Setting) : Prop :=
  ∃ value, (setting, value) ∈ supplied none arguments ∧ ∃ literal ∈ setting.literals value,
    NonFinite literal

/-- The options that set a threshold. -/
def Setting.thresholds : List Setting :=
  [.simMember, .simMeta, .synMember, .synMeta, .ngramSize, .missing, .maxDistance]

theorem parse_eq (arguments : List String) :
    parse arguments = readOptions arguments >>= fun config => (check config).mapError .check := by
  unfold parse readOptions
  cases arguments.foldlM Reader.step .start with
  | error refusal => rfl
  | ok reader =>
      rw [ok_bind_eq, ok_bind_eq]
      cases reader.settle <;> rfl

/-- The options that the met one and the remaining arguments supply. -/
def Pending.supplied (pending : Pending) (arguments : List String) : List (Setting × String) :=
  match pending with
  | .nothing => CommandLine.supplied none arguments
  | .named setting => CommandLine.supplied (some setting) arguments
  | .valued setting value => (setting, value) :: CommandLine.supplied none arguments

/-! ### One argument -/

namespace Argument

theorem ofLong_ne_word (name : String) (value? : Option String) (word : String) :
    ofLong name value? ≠ .word word := by
  unfold ofLong
  split
  · simp
  · split <;> simp

theorem ofShort_ne_word (letter : Char) (rest : List Char) (word : String) :
    ofShort letter rest ≠ .word word := by
  unfold ofShort
  split <;> split <;> simp

/-- A word is the argument itself. -/
theorem eq_of_ofText_word {text word : String} (h : ofText text = .word word) : word = text := by
  unfold ofText at h
  split at h
  · cases h
  · split at h
    · exact absurd h (ofLong_ne_word _ _ _)
    · exact absurd h (ofLong_ne_word _ _ _)
  · exact absurd h (ofShort_ne_word _ _ _)
  · exact (Argument.word.inj h).symm

end Argument

namespace Reader

/-- Everything that an argument can do to a reader which goes on. -/
theorem step_cases {reader next : Reader} {text : String} (h : reader.step text = .ok next) :
    reader.ended = false ∧
      (Argument.ofText text = .endOfOptions ∧ next = { reader with ended := true } ∨
        (∃ setting value settled, Argument.ofText text = .option setting (some value) ∧
          reader.settle = .ok settled ∧ settled.accept setting value = .ok next) ∨
        (∃ setting settled, Argument.ofText text = .option setting none ∧
          reader.settle = .ok settled ∧ next = { settled with pending := .named setting }) ∨
        ∃ setting, Argument.ofText text = .word text ∧ reader.pending = .named setting ∧
          next = { reader with pending := .valued setting text }) := by
  unfold step at h
  cases hended : reader.ended with
  | true => simp [hended] at h
  | false =>
      refine ⟨rfl, ?_⟩
      rw [hended, if_neg Bool.false_ne_true] at h
      cases hargument : Argument.ofText text with
      | endOfOptions =>
          simp only [hargument, Except.ok.injEq] at h
          exact .inl ⟨rfl, h.symm⟩
      | option setting value? =>
          simp only [hargument, mapError_eq_ok_iff, meet, bind_eq_ok_iff] at h
          obtain ⟨settled, hsettle, hrest⟩ := h
          cases value? with
          | some value => exact .inr (.inl ⟨setting, value, settled, rfl, hsettle, hrest⟩)
          | none =>
              exact .inr (.inr (.inl ⟨setting, settled, rfl, hsettle, (pure_eq_ok_iff.1 hrest).symm⟩))
      | bareFlag flag long =>
          simp only [hargument] at h
          split at h <;> cases h
      | flagValue flag value => simp [hargument] at h
      | unknown shown => simp [hargument] at h
      | word word =>
          obtain rfl := Argument.eq_of_ofText_word hargument
          simp only [hargument] at h
          split at h
          · rename_i setting hpending
            exact .inr (.inr (.inr ⟨setting, rfl, hpending, (Except.ok.inj h).symm⟩))
          · cases h

/-- The value of an option is taken over only once, unless it continues the sweep. -/
theorem accept_cases {reader next : Reader} {setting : Setting} {value : String}
    (h : reader.accept setting value = .ok next) :
    (setting ∈ reader.given → setting = .synMetaSweep) ∧
      ∃ config, setting.put (reader.given.contains setting) value reader.config = .ok config ∧
        next = { reader with config := config, given := setting :: reader.given, pending := .nothing } := by
  simp only [accept] at h
  split at h
  · cases h
  · rename_i honce
    refine ⟨fun hmem => by_contra fun hne => honce ⟨by simpa using hmem, hne⟩, ?_⟩
    cases hput : setting.put (reader.given.contains setting) value reader.config with
    | error error =>
        rw [hput] at h
        cases h
    | ok config =>
        rw [hput] at h
        exact ⟨config, rfl, (Except.ok.inj h).symm⟩

theorem eq_nil_of_ended {arguments : List String} {reader final : Reader}
    (h : arguments.foldlM step reader = .ok final) (hended : reader.ended = true) : arguments = [] := by
  cases arguments with
  | nil => rfl
  | cons text arguments =>
      rw [List.foldlM_cons] at h
      obtain ⟨next, hstep, -⟩ := bind_eq_ok_iff.1 h
      simp [(step_cases hstep).1] at hended

end Reader

/-! ### What has been read -/

/-- The literals of an option, from all places where it is given. -/
def literalsOf (setting : Setting) (options : List (Setting × String)) : List (List Char) :=
  options.flatMap fun option => if option.1 = setting then setting.literals option.2 else []

/-- The options that have been read are these, and their literals denote what the configuration holds. -/
structure Reflects (options : List (Setting × String)) (reader : Reader) : Prop where
  given : ∀ setting, setting ∈ reader.given ↔ setting ∈ options.map Prod.fst
  numbers : ∀ setting, setting ∈ reader.given →
    Denote (literalsOf setting options) (setting.numbers reader.config)
  initial : ∀ setting, setting ∉ reader.given → setting.numbers reader.config = setting.numbers .initial
  maxK_pos : 1 ≤ reader.config.maxK

theorem reflects_start : Reflects [] .start where
  given setting := by simp [Reader.start]
  numbers setting h := absurd h List.not_mem_nil
  initial _ _ := rfl
  maxK_pos := Config.valid_initial.maxK_pos

theorem literalsOf_of_not_mem {setting : Setting} {options : List (Setting × String)}
    (h : setting ∉ options.map Prod.fst) : literalsOf setting options = [] := by
  unfold literalsOf
  rw [List.flatMap_eq_nil_iff]
  intro option hmem
  rw [if_neg]
  rintro rfl
  exact h (List.mem_map_of_mem hmem)

theorem literalsOf_concat_self {setting : Setting} {options : List (Setting × String)} {value : String} :
    literalsOf setting (options ++ [(setting, value)]) =
      literalsOf setting options ++ setting.literals value := by
  simp [literalsOf]

theorem literalsOf_concat_of_ne {setting other : Setting} {options : List (Setting × String)}
    {value : String} (hne : other ≠ setting) :
    literalsOf other (options ++ [(setting, value)]) = literalsOf other options := by
  simp [literalsOf, hne.symm]

theorem mem_literalsOf {setting : Setting} {options : List (Setting × String)} {literal : List Char} :
    literal ∈ literalsOf setting options ↔
      ∃ value, (setting, value) ∈ options ∧ literal ∈ setting.literals value := by
  unfold literalsOf
  rw [List.mem_flatMap]
  constructor
  · rintro ⟨⟨other, value⟩, hmem, hliteral⟩
    by_cases heq : other = setting
    · subst heq
      exact ⟨value, hmem, by simpa using hliteral⟩
    · simp [heq] at hliteral
  · rintro ⟨value, hmem, hliteral⟩
    exact ⟨(setting, value), hmem, by simpa using hliteral⟩

namespace Reflects

variable {options : List (Setting × String)} {reader : Reader}

/-- One more option with its value. -/
theorem accept (h : Reflects options reader) {setting : Setting} {value : String} {next : Reader}
    (haccept : reader.accept setting value = .ok next) :
    Reflects (options ++ [(setting, value)]) next ∧ next.pending = .nothing := by
  obtain ⟨honce, config, hput, rfl⟩ := Reader.accept_cases haccept
  have hall : Reflects (options ++ [(setting, value)])
      { reader with config := config, given := setting :: reader.given, pending := .nothing } := {
    given := fun other => by simp [h.given, or_comm]
    numbers := by
      intro other hmem
      by_cases heq : other = setting
      · subst heq
        obtain ⟨numbers, hnumbers, hconfig⟩ := numbers_put hput fun hold => honce (by simpa using hold)
        rw [literalsOf_concat_self, hconfig]
        by_cases hold : other ∈ reader.given
        · rw [if_pos (by simpa using hold)]
          exact List.rel_append (h.numbers other hold) hnumbers
        · rw [if_neg (by simpa using hold), literalsOf_of_not_mem (mt (h.given other).2 hold)]
          exact hnumbers
      · have hold := (List.mem_cons.1 hmem).resolve_left heq
        rw [literalsOf_concat_of_ne heq, numbers_put_of_ne hput heq]
        exact h.numbers other hold
    initial := by
      intro other hmem
      obtain ⟨hne, hold⟩ := not_or.1 (mt List.mem_cons.2 hmem)
      rw [numbers_put_of_ne hput hne]
      exact h.initial other hold
    maxK_pos := maxK_put hput h.maxK_pos }
  exact ⟨hall, rfl⟩

/-- The option that was met last is taken over with its value. -/
theorem settle (h : Reflects options reader) {settled : Reader}
    (hsettle : reader.settle = .ok settled) :
    Reflects (options ++ reader.pending.supplied []) settled ∧ settled.pending = .nothing ∧
      ∀ arguments, reader.pending.supplied arguments =
        reader.pending.supplied [] ++ supplied none arguments := by
  unfold Reader.settle at hsettle
  split at hsettle
  · rename_i hpending
    cases hsettle
    rw [hpending]
    refine ⟨?_, rfl, fun _ => rfl⟩
    simpa [Pending.supplied, supplied] using h
  · cases hsettle
  · rename_i setting value hpending
    rw [hpending]
    obtain ⟨hnext, hnothing⟩ := h.accept hsettle
    exact ⟨hnext, hnothing, fun _ => rfl⟩

/-- When everything has been read, what is held reflects all that is supplied. -/
theorem foldlM {arguments : List String} (h : Reflects options reader) {final settled : Reader}
    (hread : arguments.foldlM Reader.step reader = .ok final) (hsettle : final.settle = .ok settled) :
    Reflects (options ++ reader.pending.supplied arguments) settled := by
  -- what the remaining arguments supply depends on the option that still waits for its value
  induction arguments generalizing options reader with
  | nil =>
      cases hread
      exact (h.settle hsettle).1
  | cons text arguments ih =>
      rw [List.foldlM_cons] at hread
      obtain ⟨next, hstep, hrest⟩ := bind_eq_ok_iff.1 hread
      obtain ⟨-, hend | hvalued | hnamed | hword⟩ := Reader.step_cases hstep
      · obtain ⟨htext, rfl⟩ := hend
        -- an argument behind the end of options would have been refused
        have hnil := Reader.eq_nil_of_ended hrest rfl
        subst hnil
        cases hrest
        have hlast : Reflects options { reader with ended := true } :=
          ⟨h.given, h.numbers, h.initial, h.maxK_pos⟩
        obtain ⟨hall, -, hsplit⟩ := hlast.settle hsettle
        have hnone : supplied none [text] = [] := by simp [supplied, htext]
        have hsame : reader.pending.supplied [text] = reader.pending.supplied [] := by
          rw [hsplit [text], hnone, List.append_nil]
        rw [hsame]
        exact hall
      · obtain ⟨setting, value, middle, htext, hmiddle, haccept⟩ := hvalued
        obtain ⟨hold, -, hsplit⟩ := h.settle hmiddle
        obtain ⟨hnew, hnothing⟩ := hold.accept haccept
        have hall := ih hnew hrest
        rw [hnothing] at hall
        rw [hsplit (text :: arguments)]
        simpa [Pending.supplied, supplied, htext] using hall
      · obtain ⟨setting, middle, htext, hmiddle, rfl⟩ := hnamed
        obtain ⟨hold, -, hsplit⟩ := h.settle hmiddle
        have hopen : Reflects (options ++ reader.pending.supplied [])
            { middle with pending := .named setting } :=
          ⟨hold.given, hold.numbers, hold.initial, hold.maxK_pos⟩
        have hall := ih hopen hrest
        rw [hsplit (text :: arguments)]
        simpa [Pending.supplied, supplied, htext] using hall
      · obtain ⟨setting, -, hpending, rfl⟩ := hword
        have hopen : Reflects options { reader with pending := .valued setting text } :=
          ⟨h.given, h.numbers, h.initial, h.maxK_pos⟩
        have hall := ih hopen hrest
        rw [hpending]
        exact hall

end Reflects

theorem exists_of_readOptions {arguments : List String} {config : Config}
    (h : readOptions arguments = .ok config) :
    ∃ reader, Reflects (supplied none arguments) reader ∧ reader.config = config := by
  unfold readOptions at h
  simp only [bind_eq_ok_iff, mapError_eq_ok_iff, pure_eq_ok_iff] at h
  obtain ⟨final, hread, settled, hsettle, rfl⟩ := h
  exact ⟨settled, reflects_start.foldlM hread hsettle, rfl⟩

/-! ### The check -/

theorem Denote.exists_not_finite_iff {literals : List (List Char)} {numbers : List Float}
    (h : Denote literals numbers) :
    (∃ x ∈ numbers, x.isFinite = false) ↔ ∃ literal ∈ literals, NonFinite literal := by
  induction h with
  | nil => simp
  | @cons literal x literals numbers hread _ ih =>
      have hhead : NonFinite literal ↔ x.isFinite = false := by
        constructor
        · rintro ⟨y, hy, hfinite⟩
          rw [hread] at hy
          rwa [← Except.ok.inj hy] at hfinite
        · exact fun hfinite => ⟨x, hread, hfinite⟩
      simp only [List.mem_cons, exists_eq_or_imp, hhead, ih]

theorem isFinite_of_mem_numbers_initial (setting : Setting) :
    ∀ x ∈ setting.numbers .initial, x.isFinite = true := by
  cases setting <;> decide

/-- A configuration holds a number that is not finite just where a literal denotes one. -/
theorem exists_not_finite_iff {arguments : List String} {config : Config}
    (h : readOptions arguments = .ok config) (setting : Setting) :
    (∃ x ∈ setting.numbers config, x.isFinite = false) ↔ SuppliesNonFinite arguments setting := by
  obtain ⟨reader, hreflects, rfl⟩ := exists_of_readOptions h
  have hliterals : SuppliesNonFinite arguments setting ↔
      ∃ literal ∈ literalsOf setting (supplied none arguments), NonFinite literal := by
    simp only [SuppliesNonFinite, mem_literalsOf]
    constructor
    · rintro ⟨value, hmem, literal, hliteral, hnonFinite⟩
      exact ⟨literal, ⟨value, hmem, hliteral⟩, hnonFinite⟩
    · rintro ⟨literal, ⟨value, hmem, hliteral⟩, hnonFinite⟩
      exact ⟨value, hmem, literal, hliteral, hnonFinite⟩
  rw [hliterals]
  by_cases hgiven : setting ∈ reader.given
  · exact (hreflects.numbers setting hgiven).exists_not_finite_iff
  · rw [hreflects.initial setting hgiven, literalsOf_of_not_mem (mt (hreflects.given setting).2 hgiven)]
    constructor
    · rintro ⟨x, hmem, hfinite⟩
      simp [isFinite_of_mem_numbers_initial setting x hmem] at hfinite
    · rintro ⟨literal, hmem, -⟩
      cases hmem

/-- The sweep is never empty: even an empty value has a literal, which is no number. -/
theorem sweep_ne_nil {arguments : List String} {config : Config}
    (h : readOptions arguments = .ok config) : config.synMetaSweep ≠ [] := by
  obtain ⟨reader, hreflects, rfl⟩ := exists_of_readOptions h
  by_cases hgiven : Setting.synMetaSweep ∈ reader.given
  · obtain ⟨⟨setting, value⟩, hmem, rfl⟩ := List.mem_map.1 ((hreflects.given _).1 hgiven)
    obtain ⟨literal, hliteral⟩ := List.exists_mem_of_ne_nil _ (Text.cut_ne_nil ',' value.toList)
    have hliterals := mem_literalsOf.2 ⟨value, hmem, hliteral⟩
    have hnumbers := hreflects.numbers _ hgiven
    intro hnil
    simp only [Setting.numbers, hnil, Denote, List.forall₂_nil_right_iff] at hnumbers
    rw [hnumbers] at hliterals
    cases hliterals
  · have hinitial := hreflects.initial _ hgiven
    simp only [Setting.numbers] at hinitial
    rw [hinitial]
    exact Config.valid_initial.sweep_ne_nil

theorem maxK_pos {arguments : List String} {config : Config}
    (h : readOptions arguments = .ok config) : 1 ≤ config.maxK := by
  obtain ⟨reader, hreflects, rfl⟩ := exists_of_readOptions h
  exact hreflects.maxK_pos

theorem exists_threshold_iff (config : Config) :
    (∃ entry ∈ config.thresholds.entries, entry.2.isFinite = false) ↔
      ∃ setting ∈ Setting.thresholds, ∃ x ∈ setting.numbers config, x.isFinite = false := by
  simp [Thresholds.entries, Setting.thresholds, Setting.numbers]
  tauto

theorem threshold_or_sweep_of_supplies {arguments : List String} {setting : Setting}
    (h : SuppliesNonFinite arguments setting) :
    setting ∈ Setting.thresholds ∨ setting = .synMetaSweep := by
  obtain ⟨value, -, literal, hliteral, -⟩ := h
  cases setting <;> simp [Setting.thresholds, Setting.literals] at hliteral ⊢

/-- What the check says of an argument list that has been read, in terms of its literals. -/
theorem check_of_readOptions {arguments : List String} {config : Config}
    (h : readOptions arguments = .ok config) :
    (∃ setting ∈ Setting.thresholds, SuppliesNonFinite arguments setting) ∧
        check config = .error .infiniteThreshold ∨
      (∀ setting ∈ Setting.thresholds, ¬ SuppliesNonFinite arguments setting) ∧
        (SuppliesNonFinite arguments .synMetaSweep ∧ check config = .error .infiniteSweep ∨
          ¬ SuppliesNonFinite arguments .synMetaSweep ∧ check config = .ok config) := by
  have hsupplied := exists_not_finite_iff h
  have hthreshold := exists_threshold_iff config
  simp only [hsupplied] at hthreshold
  obtain ⟨hbad, hcheck⟩ | ⟨hthresholds, hrest⟩ := check_cases config
  · exact .inl ⟨hthreshold.1 hbad, hcheck⟩
  · have hnone : ∀ setting ∈ Setting.thresholds, ¬ SuppliesNonFinite arguments setting := by
      intro setting hmem hsetting
      obtain ⟨entry, hentry, hfinite⟩ := hthreshold.2 ⟨setting, hmem, hsetting⟩
      simp [hthresholds entry hentry] at hfinite
    refine .inr ⟨hnone, ?_⟩
    obtain ⟨hnil, -⟩ | ⟨hbad, hcheck⟩ | ⟨-, hsweep, hcheck⟩ := hrest
    · exact absurd hnil (sweep_ne_nil h)
    · exact .inl ⟨(hsupplied .synMetaSweep).1 hbad, hcheck⟩
    · refine .inr ⟨fun hsetting => ?_, hcheck⟩
      obtain ⟨x, hx, hfinite⟩ := (hsupplied .synMetaSweep).2 hsetting
      simp [hsweep x hx] at hfinite

/-- What the views can rely on: all that runs are compared with is finite. -/
structure Comparable (config : Config) : Prop where
  finite_thresholds : ∀ value ∈ [config.thresholds.simMember, config.thresholds.simMeta,
    config.thresholds.synMember, config.thresholds.synMeta, config.thresholds.ngramSize,
    config.thresholds.missing, config.thresholds.maxDistance], value.isFinite = true
  sweep_ne_nil : config.synMetaSweep ≠ []
  finite_sweep : ∀ value ∈ config.synMetaSweep, value.isFinite = true
  maxK_pos : 1 ≤ config.maxK
  accepts_iff : ∀ run : Run, config.thresholds.baseFilter.accepts run = true ↔
    (run.get .simMember == config.thresholds.simMember) = true ∧
    (run.get .simMeta == config.thresholds.simMeta) = true ∧
    (run.get .synMember == config.thresholds.synMember) = true ∧
    (run.get .synMeta == config.thresholds.synMeta) = true ∧
    (run.get .missing == config.thresholds.missing) = true ∧
    (run.get .maxDistance == config.thresholds.maxDistance) = true ∧
    (run.get .ngramSize == config.thresholds.ngramSize) = true
  finite_constants : ∀ (kind : ViewKind), ∀ filter ∈ kind.filters config, ∀ column value,
    Predicate.equals column value ∈ filter.predicates → value.isFinite = true
  /-- The views build no other filters. -/
  computeWith_eq : ∀ (kind : ViewKind) (dataset : Dataset) (select : Filter → List Run → List Run),
    (∀ filter ∈ kind.filters config, ∀ runs, select filter runs = filter.select runs) →
      kind.computeWith select config dataset = kind.compute config dataset

theorem comparable_of_check {arguments : List String} {config : Config}
    (hread : readOptions arguments = .ok config) (hcheck : check config = .ok config) :
    Comparable config := by
  obtain ⟨-, herror⟩ | ⟨hthresholds, ⟨-, herror⟩ | ⟨-, herror⟩ | ⟨hnil, hsweep, -⟩⟩ :=
    check_cases config
  · cases hcheck.symm.trans herror
  · cases hcheck.symm.trans herror
  · cases hcheck.symm.trans herror
  · exact {
      finite_thresholds := by
        have hall := hthresholds
        simp only [Thresholds.entries, List.forall_mem_cons] at hall ⊢
        tauto
      sweep_ne_nil := hnil
      finite_sweep := hsweep
      maxK_pos := maxK_pos hread
      accepts_iff := fun run => by
        rw [accepts_baseFilter_iff]
        simp [Thresholds.entries]
      finite_constants := fun _ _ hfilter _ _ hmem =>
        isFinite_of_mem_filters hthresholds hsweep hfilter hmem
      computeWith_eq := fun _ dataset _ hselect => computeWith_congr hselect dataset }

/-- An argument list is accepted only with finite values to compare with. One that can be read is rejected
    just where a literal denotes a NaN or an infinity, and the message tells the thresholds, which are
    looked at first, from the sweep. -/
theorem parse_finite (arguments : List String) :
    (∀ config, parse arguments = .ok config → Comparable config) ∧
      ∀ config, readOptions arguments = .ok config →
        parse arguments = (check config).mapError .check ∧
        ((∃ error, check config = .error error) ↔ ∃ setting, SuppliesNonFinite arguments setting) ∧
        ((∃ setting ∈ Setting.thresholds, SuppliesNonFinite arguments setting) →
          ∃ error, check config = .error error ∧ error.message = "thresholds must be finite numbers") ∧
        ((∃ setting, SuppliesNonFinite arguments setting) →
          (∀ setting ∈ Setting.thresholds, ¬ SuppliesNonFinite arguments setting) →
          ∃ error, check config = .error error ∧
            error.message = "the synonym threshold sweep must only contain finite numbers") := by
  constructor
  · intro config hparse
    rw [parse_eq] at hparse
    obtain ⟨read, hread, hcheck⟩ := bind_eq_ok_iff.1 hparse
    rw [mapError_eq_ok_iff] at hcheck
    obtain rfl := eq_of_check hcheck
    exact comparable_of_check hread hcheck
  · intro config hread
    refine ⟨by rw [parse_eq, hread, ok_bind_eq], ?_⟩
    obtain ⟨⟨threshold, hmem, hbad⟩, hcheck⟩ | ⟨hnone, hrest⟩ := check_of_readOptions hread
    · refine ⟨⟨fun _ => ⟨threshold, hbad⟩, fun _ => ⟨_, hcheck⟩⟩, fun _ => ⟨_, hcheck, rfl⟩, ?_⟩
      exact fun _ hnone => absurd hbad (hnone threshold hmem)
    · have hsweep : ∀ {setting}, SuppliesNonFinite arguments setting →
          SuppliesNonFinite arguments .synMetaSweep := by
        intro setting hsetting
        obtain hmem | rfl := threshold_or_sweep_of_supplies hsetting
        · exact absurd hsetting (hnone setting hmem)
        · exact hsetting
      have hthresholds : ¬ ∃ setting ∈ Setting.thresholds, SuppliesNonFinite arguments setting :=
        fun ⟨setting, hmem, hsetting⟩ => hnone setting hmem hsetting
      obtain ⟨hbad, hcheck⟩ | ⟨hgood, hcheck⟩ := hrest
      · exact ⟨⟨fun _ => ⟨_, hbad⟩, fun _ => ⟨_, hcheck⟩⟩, fun h => absurd h hthresholds,
          fun _ _ => ⟨_, hcheck, rfl⟩⟩
      · have hall : ¬ ∃ setting, SuppliesNonFinite arguments setting :=
          fun ⟨_, hsetting⟩ => hgood (hsweep hsetting)
        refine ⟨⟨fun ⟨error, herror⟩ => ?_, fun h => absurd h hall⟩, fun h => absurd h hthresholds,
          fun h => absurd h hall⟩
        cases hcheck.symm.trans herror

/-- A literal that overflows is rejected with the message on thresholds even if the sweep has a NaN, a NaN in
    the sweep alone is rejected with the other message, and finite values are accepted. -/
theorem parse_finite_overflow :
    (∃ config, readOptions ["--missing=1e999", "--syn-meta-sweep", "2,NaN"] = .ok config ∧
      ∃ error, check config = .error error ∧ error.message = "thresholds must be finite numbers") ∧
    (∃ config, readOptions ["--syn-meta-sweep", "2,NaN"] = .ok config ∧
      ∃ error, check config = .error error ∧
        error.message = "the synonym threshold sweep must only contain finite numbers") ∧
    ∃ config, parse ["-k", "3"] = .ok config ∧ Comparable config := by
  have hmissing : SuppliesNonFinite ["--missing=1e999", "--syn-meta-sweep", "2,NaN"] .missing :=
    ⟨"1e999", by decide +kernel, _, List.mem_singleton_self _, 1.0 / 0.0, by decide +kernel, by decide⟩
  have hsweep : SuppliesNonFinite ["--syn-meta-sweep", "2,NaN"] .synMetaSweep :=
    ⟨"2,NaN", by decide +kernel, "NaN".toList, by decide +kernel, 0.0 / 0.0, by decide +kernel,
      by decide⟩
  have hnone : ∀ setting ∈ Setting.thresholds,
      ¬ SuppliesNonFinite ["--syn-meta-sweep", "2,NaN"] setting := by
    rintro setting hmem ⟨value, hsupplied, -⟩
    have hlist : supplied none ["--syn-meta-sweep", "2,NaN"] = [(.synMetaSweep, "2,NaN")] := by
      decide +kernel
    rw [hlist, List.mem_singleton] at hsupplied
    obtain ⟨rfl, rfl⟩ := Prod.mk.inj hsupplied
    simp [Setting.thresholds] at hmem
  have hread : readOptions ["--missing=1e999", "--syn-meta-sweep", "2,NaN"] =
      .ok { Config.initial with
            thresholds := { Config.initial.thresholds with missing := 1.0 / 0.0 }
            synMetaSweep := [2.0, 0.0 / 0.0] } := by decide +kernel
  have hread' : readOptions ["--syn-meta-sweep", "2,NaN"] =
      .ok { Config.initial with synMetaSweep := [2.0, 0.0 / 0.0] } := by decide +kernel
  have hparse : parse ["-k", "3"] = .ok { Config.initial with maxK := 3 } := by decide +kernel
  refine ⟨⟨_, hread, ?_⟩, ⟨_, hread', ?_⟩, ⟨_, hparse, ?_⟩⟩
  · exact ((parse_finite _).2 _ hread).2.2.1 ⟨.missing, by decide, hmissing⟩
  · exact ((parse_finite _).2 _ hread').2.2.2 ⟨.synMetaSweep, hsweep⟩ hnone
  · exact (parse_finite _).1 _ hparse

end EvalCharts.CommandLine
