import Mathlib.Data.List.Nodup
import Sequencer.Proofs.Listing
import Sequencer.Settings.Passes

set_option autoImplicit false

/-!
# Options given as arguments

Of the arguments that give an option a value that can be read, the last one decides, and the default if there is none.
So each option of a pass has one value, which is of its sort, and no setting is read in vain.
-/

namespace Sequencer

theorem splitAt_eq_splitOn (sep : Char) (cs : List Char) : splitAt sep cs = cs.splitOn sep := by
  induction cs with
  | nil => rfl
  | cons c cs ih =>
    rw [splitAt, ih, List.splitOn_cons_eq_if_modifyHead]
    by_cases hc : c = sep
    · rw [if_pos hc, if_pos (by simpa using hc)]
    · rw [if_neg hc, if_neg (by simpa using hc)]
      obtain ⟨p, ps, hps⟩ := List.exists_cons_of_ne_nil (List.splitOn_ne_nil sep cs)
      rw [hps, List.modifyHead_cons]

theorem pieces_eq_splitOn (sep : Char) (s : String) : pieces sep s = (s.toList.splitOn sep).map String.ofList := by
  rw [pieces, splitAt_eq_splitOn]

theorem ofList_eq_iff {cs : List Char} {s : String} : String.ofList cs = s ↔ cs = s.toList := by
  rw [← String.ofList_inj, String.ofList_toList]

namespace OptionValue

/-- Whether a value is of the same sort as another one. -/
def SameSort : OptionValue → OptionValue → Prop
  | flag _, flag _ => True
  | number _, number _ => True
  | _, _ => False

theorem SameSort.refl (v : OptionValue) : v.SameSort v := by
  cases v with
  | flag b => trivial
  | number n => trivial

theorem sameSort_of_readLike {d v : OptionValue} {s : String} (h : d.readLike s = some v) : d.SameSort v := by
  cases d with
  | flag b =>
    change readFlag s = some v at h
    unfold readFlag at h
    split at h
    · cases h
      trivial
    · split at h
      · cases h
        trivial
      · cases h
  | number n =>
    obtain ⟨k, -, rfl⟩ := Option.map_eq_some_iff.1 h
    trivial

theorem exists_flag_of_sameSort {b : Bool} {v : OptionValue} (h : (flag b).SameSort v) : ∃ b', v = flag b' := by
  cases v with
  | flag b' => exact ⟨b', rfl⟩
  | number n => exact h.elim

theorem exists_number_of_sameSort {n : Int} {v : OptionValue} (h : (number n).SameSort v) : ∃ n', v = number n' := by
  cases v with
  | flag b => exact h.elim
  | number n' => exact ⟨n', rfl⟩

end OptionValue

namespace Pass

/-- The argument is `pass:option` or `pass:option=value` for this option, and its value can be read. An option alone has
the value `true`, and nothing after a further separator counts. -/
def Gives (p : Pass) (o : PassOption) (argument : String) (v : OptionValue) : Prop :=
  ∃ text rest value, argument.toList.splitOn ':' = p.name.toList :: text :: rest ∧
    text.splitOn '=' = o.name.toList :: value ∧
    o.default.readLike (String.ofList (value.headD "true".toList)) = some v

/-- The last argument that gives the option a value gives it `v`, or there is none and `v` is the default. -/
def Settles (p : Pass) (o : PassOption) (arguments : List String) (v : OptionValue) : Prop :=
  (∃ before argument after, arguments = before ++ argument :: after ∧ p.Gives o argument v ∧
    ∀ later ∈ after, ∀ w, ¬ p.Gives o later w) ∨
  ((∀ argument ∈ arguments, ∀ w, ¬ p.Gives o argument w) ∧ v = o.default)

/-- No two options of the pass have the same name. -/
def Distinct (p : Pass) : Prop := (p.options.map PassOption.name).Nodup

variable {p : Pass} {o : PassOption}

theorem Distinct.find? (hp : p.Distinct) (ho : o ∈ p.options) : p.options.find? (·.name == o.name) = some o := by
  obtain ⟨o', hfind⟩ : ∃ o', p.options.find? (·.name == o.name) = some o' :=
    Option.isSome_iff_exists.1 (List.find?_isSome.2 ⟨o, ho, by simp⟩)
  have hname : o'.name = o.name := by simpa using List.find?_some hfind
  rw [hfind, List.inj_on_of_nodup_map hp (List.mem_of_find?_eq_some hfind) ho hname]

theorem readOption_eq {s : String} {name : List Char} {value : List (List Char)}
    (h : s.toList.splitOn '=' = name :: value) : p.readOption s =
      match p.options.find? (·.name == String.ofList name) with
      | none => .ignored ⟨.warn, "Ignoring unknown option for pass `" ++ p.name ++ "`: " ++ String.ofList name⟩
      | some o =>
        match o.default.readLike (String.ofList (value.headD "true".toList)) with
        | none => .ignored ⟨.warn, "Ignoring invalid value for option `" ++ p.name ++ ":" ++ o.name ++ "`: " ++
            String.ofList (value.headD "true".toList)⟩
        | some v => .given o.name v := by
  rw [readOption, pieces_eq_splitOn, h]
  cases value with
  | nil => rfl
  | cons v vs => rfl

theorem mem_of_readOption {s name : String} {v : OptionValue} (h : p.readOption s = .given name v) :
    ∃ o ∈ p.options, o.name = name := by
  obtain ⟨n, value, hsplit⟩ := List.exists_cons_of_ne_nil (List.splitOn_ne_nil '=' s.toList)
  rw [readOption_eq hsplit] at h
  split at h
  · cases h
  · rename_i o ho
    split at h
    · cases h
    · cases h
      exact ⟨o, List.mem_of_find?_eq_some ho, rfl⟩

theorem readOption_eq_given_iff (hp : p.Distinct) (ho : o ∈ p.options) {s : String} {v : OptionValue} :
    p.readOption s = .given o.name v ↔ ∃ value, s.toList.splitOn '=' = o.name.toList :: value ∧
      o.default.readLike (String.ofList (value.headD "true".toList)) = some v := by
  obtain ⟨name, value, hsplit⟩ := List.exists_cons_of_ne_nil (List.splitOn_ne_nil '=' s.toList)
  rw [readOption_eq hsplit, hsplit]
  constructor
  · intro h
    split at h
    · cases h
    · rename_i o' hfind
      split at h
      · cases h
      · rename_i v' hread
        injection h with hname hv
        have hsame : o' = o := List.inj_on_of_nodup_map hp (List.mem_of_find?_eq_some hfind) ho hname
        subst hsame hv
        have hword : o'.name = String.ofList name := by simpa using List.find?_some hfind
        exact ⟨value, by rw [ofList_eq_iff.1 hword.symm], hread⟩
  · rintro ⟨value', hsplit', hread⟩
    injection hsplit' with hname hvalue
    subst hname hvalue
    rw [String.ofList_toList, hp.find? ho]
    dsimp only
    rw [hread]

theorem mem_of_readArgument {s name : String} {v : OptionValue} (h : p.readArgument s = .given name v) :
    ∃ o ∈ p.options, o.name = name := by
  unfold readArgument at h
  split at h
  · split at h
    · exact mem_of_readOption h
    · cases h
  · cases h

theorem readArgument_eq_given_iff (hp : p.Distinct) (ho : o ∈ p.options) {s : String} {v : OptionValue} :
    p.readArgument s = .given o.name v ↔ p.Gives o s v := by
  rw [readArgument, pieces_eq_splitOn, Gives]
  rcases s.toList.splitOn ':' with _ | ⟨pass, _ | ⟨text, rest⟩⟩
  · simp
  · simp
  · simp only [List.map_cons, List.cons.injEq]
    by_cases hpass : pass = p.name.toList
    · rw [if_pos (ofList_eq_iff.2 hpass), readOption_eq_given_iff hp ho, String.toList_ofList]
      constructor
      · rintro ⟨value, hsplit, hread⟩
        exact ⟨text, rest, value, ⟨hpass, rfl, rfl⟩, hsplit, hread⟩
      · rintro ⟨_, _, value, ⟨-, rfl, rfl⟩, hsplit, hread⟩
        exact ⟨value, hsplit, hread⟩
    · rw [if_neg fun h => hpass (ofList_eq_iff.1 h)]
      refine iff_of_false (fun h => by cases h) ?_
      rintro ⟨_, _, _, ⟨h, -⟩, -⟩
      exact hpass h

/-- The value that one argument gives to a name. -/
def given? (p : Pass) (name argument : String) : Option OptionValue :=
  match p.readArgument argument with
  | .given n v => if n = name then some v else none
  | _ => none

theorem given?_eq_some_iff {name argument : String} {v : OptionValue} :
    p.given? name argument = some v ↔ p.readArgument argument = .given name v := by
  unfold given?
  split
  · rename_i n v' h
    rw [h]
    by_cases hn : n = name
    · simp [hn]
    · simp [hn]
  · rename_i hnot
    exact iff_of_false (fun h => by cases h) fun h => hnot name v h

/-- Later arguments win over earlier ones. -/
theorem get?_readArguments (arguments : List String) (values : Listing OptionValue) (log : List Notice) (name : String) :
    (p.readArguments arguments (values, log)).1.get? name =
      (arguments.reverse.findSome? (p.given? name)).or (values.get? name) := by
  induction arguments generalizing values log with
  | nil => rfl
  | cons s ss ih =>
    rw [List.reverse_cons, List.findSome?_append, Option.or_assoc, readArguments, List.findSome?_singleton, given?]
    cases p.readArgument s with
    | silent => exact ih values log
    | ignored n => exact ih values _
    | given n v =>
      refine (ih _ log).trans (congrArg _ ?_)
      dsimp only
      by_cases hn : n = name
      · rw [hn, Listing.get?_insert_self, if_pos rfl]
        rfl
      · rw [Listing.get?_insert_of_ne _ _ (Ne.symm hn), if_neg hn]
        rfl

theorem get?_defaults (os : List PassOption) (values : Listing OptionValue) (name : String) :
    (os.foldl (fun vs o => if vs.contains o.name then vs else vs.insert o.name o.default) values).get? name =
      (values.get? name).or ((os.find? (·.name == name)).map PassOption.default) := by
  induction os generalizing values with
  | nil => simp
  | cons o os ih =>
    rw [List.foldl_cons, ih]
    by_cases hname : o.name = name
    · subst hname
      rw [List.find?_cons_of_pos (by simp)]
      by_cases hmem : values.contains o.name = true
      · obtain ⟨v, hv⟩ := Listing.exists_of_contains hmem
        rw [if_pos hmem, hv]
        rfl
      · have hnone : values.get? o.name = none := by
          rw [Listing.contains_iff_mem_keys, Listing.mem_keys_iff] at hmem
          exact Option.eq_none_iff_forall_not_mem.2 fun v hv => hmem ⟨v, hv⟩
        rw [if_neg hmem, Listing.get?_insert_self, hnone]
        rfl
    · rw [List.find?_cons_of_neg (by simpa using hname)]
      split
      · rfl
      · rw [Listing.get?_insert_of_ne _ _ (Ne.symm hname)]

theorem get?_settings (p : Pass) (arguments : List String) (name : String) :
    (p.settings arguments).1.get? name = (arguments.reverse.findSome? (p.given? name)).or
      ((p.options.find? (·.name == name)).map PassOption.default) := by
  change (p.options.foldl _ (p.readArguments arguments (.empty, [])).1).get? name = _
  rw [get?_defaults, get?_readArguments, Listing.get?_empty, Option.or_none]

variable {arguments : List String}

/-- Each option has a value and nothing else has one. -/
theorem keys_settings_perm (hp : p.Distinct) (arguments : List String) :
    (p.settings arguments).1.keys.Perm (p.options.map PassOption.name) := by
  refine (List.perm_ext_iff_of_nodup (p.settings arguments).1.nodup hp).2 fun name => ?_
  change name ∈ (p.settings arguments).1.keys ↔ _
  rw [Listing.mem_keys_iff, get?_settings, List.mem_map]
  constructor
  · rintro ⟨v, hv⟩
    rcases Option.or_eq_some_iff.1 hv with hgiven | ⟨-, hdefault⟩
    · obtain ⟨s, -, hs⟩ := List.exists_of_findSome?_eq_some hgiven
      exact mem_of_readArgument (given?_eq_some_iff.1 hs)
    · obtain ⟨o, ho, -⟩ := Option.map_eq_some_iff.1 hdefault
      exact ⟨o, List.mem_of_find?_eq_some ho, by simpa using List.find?_some ho⟩
  · rintro ⟨o, ho, rfl⟩
    rw [hp.find? ho, Option.map_some]
    cases arguments.reverse.findSome? (p.given? o.name) with
    | none => exact ⟨_, rfl⟩
    | some v => exact ⟨v, rfl⟩

theorem get?_settings_iff (hp : p.Distinct) (ho : o ∈ p.options) {v : OptionValue} :
    (p.settings arguments).1.get? o.name = some v ↔ p.Settles o arguments v := by
  have hgiven : ∀ s w, p.given? o.name s = some w ↔ p.Gives o s w := fun s w =>
    given?_eq_some_iff.trans (readArgument_eq_given_iff hp ho)
  have hnone : ∀ s, p.given? o.name s = none ↔ ∀ w, ¬ p.Gives o s w := fun s => by
    simp only [← hgiven, Option.eq_none_iff_forall_ne_some, ne_eq]
  rw [get?_settings, hp.find? ho, Option.map_some, Option.or_eq_some_iff, Settles]
  refine or_congr ?_ ?_
  · -- The first find in the reversed list is the last one in the list.
    rw [List.findSome?_eq_some_iff]
    constructor
    · rintro ⟨after, s, before, hsplit, hs, hafter⟩
      refine ⟨before.reverse, s, after.reverse, ?_, (hgiven s v).1 hs, fun t ht => ?_⟩
      · rw [List.reverse_eq_append_iff.1 hsplit]
        simp
      · exact (hnone t).1 (hafter t (List.mem_reverse.1 ht))
    · rintro ⟨before, s, after, rfl, hs, hafter⟩
      exact ⟨after.reverse, s, before.reverse, by simp, (hgiven s v).2 hs, fun t ht =>
        (hnone t).2 (hafter t (List.mem_reverse.1 ht))⟩
  · rw [List.findSome?_eq_none_iff, Option.some.injEq, eq_comm (a := o.default)]
    simp only [List.mem_reverse, hnone]

theorem exists_get?_settings (hp : p.Distinct) (ho : o ∈ p.options) (arguments : List String) :
    ∃ v, (p.settings arguments).1.get? o.name = some v ∧ o.default.SameSort v := by
  have hmem : o.name ∈ (p.settings arguments).1.keys :=
    (keys_settings_perm hp arguments).mem_iff.2 (List.mem_map_of_mem ho)
  obtain ⟨v, hv⟩ := Listing.mem_keys_iff.1 hmem
  refine ⟨v, hv, ?_⟩
  rcases (get?_settings_iff hp ho).1 hv with ⟨_, _, _, -, ⟨_, _, _, -, -, hread⟩, -⟩ | ⟨-, rfl⟩
  · exact OptionValue.sameSort_of_readLike hread
  · exact .refl _

theorem flag_settings (hp : p.Distinct) (ho : o ∈ p.options) {b : Bool} (hsort : o.default = .flag b)
    (arguments : List String) : ∃ v, (p.settings arguments).1.get? o.name = some v ∧
      v.asFlag = .ok (flag (p.settings arguments).1 o.name) := by
  obtain ⟨v, hv, hsame⟩ := exists_get?_settings hp ho arguments
  rw [hsort] at hsame
  obtain ⟨b', rfl⟩ := OptionValue.exists_flag_of_sameSort hsame
  exact ⟨_, hv, by rw [flag, hv]; rfl⟩

theorem natural_settings (hp : p.Distinct) (ho : o ∈ p.options) {n : Int} (hsort : o.default = .number n)
    (arguments : List String) (fallback : Nat) : ∃ v k, (p.settings arguments).1.get? o.name = some v ∧
      v.asNatural = .ok k ∧ natural (p.settings arguments).1 o.name fallback = k.getD fallback := by
  obtain ⟨v, hv, hsame⟩ := exists_get?_settings hp ho arguments
  rw [hsort] at hsame
  obtain ⟨n', rfl⟩ := OptionValue.exists_number_of_sameSort hsame
  refine ⟨_, _, hv, rfl, ?_⟩
  rw [natural, hv]
  dsimp only
  split
  · rfl
  · rfl

end Pass

theorem Passes.distinct {p : Pass} (hp : p ∈ [lower, schedule, simplify]) : p.Distinct := by
  simp only [List.mem_cons, List.not_mem_nil, or_false] at hp
  unfold Pass.Distinct
  rcases hp with rfl | rfl | rfl
  · decide
  · decide
  · decide

/-- Each setting is read off a value that is there and is of the right sort. -/
structure Settings.ReadFrom (arguments : List String) (st : Settings) : Prop where
  validate : ∃ v, (Passes.lower.settings arguments).1.get? "validate" = some v ∧ v.asFlag = .ok st.validate
  dump : ∃ v, (Passes.schedule.settings arguments).1.get? "dump" = some v ∧ v.asFlag = .ok st.dump
  maxAtoms : ∃ v k, (Passes.simplify.settings arguments).1.get? "max-atoms" = some v ∧ v.asNatural = .ok k ∧
    st.maxAtoms = k.getD defaultMaxAtoms
  rounds : ∃ v k, (Passes.simplify.settings arguments).1.get? "rounds" = some v ∧ v.asNatural = .ok k ∧
    st.rounds = k.getD defaultRounds

theorem Settings.readFrom_ofArguments (arguments : List String) : (ofArguments arguments).1.ReadFrom arguments := by
  have hlower := Passes.distinct (p := Passes.lower) (by simp)
  have hschedule := Passes.distinct (p := Passes.schedule) (by simp)
  have hsimplify := Passes.distinct (p := Passes.simplify) (by simp)
  have hrounds : ⟨"rounds", _, .number 3⟩ ∈ Passes.simplify.options := List.mem_cons_of_mem _ List.mem_cons_self
  exact ⟨Pass.flag_settings hlower List.mem_cons_self rfl arguments,
    Pass.flag_settings hschedule List.mem_cons_self rfl arguments,
    Pass.natural_settings hsimplify List.mem_cons_self rfl arguments _,
    Pass.natural_settings hsimplify hrounds rfl arguments _⟩

/-- Whatever the arguments are, each option of a pass has one value, the one that its last valid mention gives or else the
default, and the settings can be read off these values. Numbers below zero stand for the default. -/
theorem settings_follow_arguments (arguments : List String) :
    (∀ p ∈ [Passes.lower, Passes.schedule, Passes.simplify],
      (p.settings arguments).1.keys.Perm (p.options.map PassOption.name) ∧
      ∀ o ∈ p.options, ∀ v, (p.settings arguments).1.get? o.name = some v ↔ p.Settles o arguments v) ∧
    (Settings.ofArguments arguments).1.ReadFrom arguments ∧
    ∀ k < 0, ((Passes.simplify.settings arguments).1.get? "max-atoms" = some (.number k) →
        (Settings.ofArguments arguments).1.maxAtoms = 8) ∧
      ((Passes.simplify.settings arguments).1.get? "rounds" = some (.number k) →
        (Settings.ofArguments arguments).1.rounds = 3) := by
  have hnegative : ∀ {name : String} {k : Int} (fallback : Nat), k < 0 →
      (Passes.simplify.settings arguments).1.get? name = some (.number k) →
      Pass.natural (Passes.simplify.settings arguments).1 name fallback = fallback := by
    intro name k fallback hk hget
    rw [Pass.natural, hget]
    exact if_pos hk
  refine ⟨fun p hp => ⟨Pass.keys_settings_perm (Passes.distinct hp) arguments, fun o ho v =>
    Pass.get?_settings_iff (Passes.distinct hp) ho⟩, Settings.readFrom_ofArguments arguments, fun k hk => ?_⟩
  exact ⟨hnegative Settings.defaultMaxAtoms hk, hnegative Settings.defaultRounds hk⟩

/-- A number is given twice, the second time below zero, and other arguments are incomplete or do not fit. -/
def mixedArguments : List String :=
  ["simplify:rounds=5", "schedule:dump", "simplify:max-atoms=4=9", "lower:validate=maybe", "simplify:rounds=-2:7",
    "simplify", "other:dump=false", "simplify:max-atoms"]

theorem mixedArguments_settings :
    (Passes.simplify.settings mixedArguments).1.keys.Perm ["max-atoms", "rounds"] ∧
    (∃ o ∈ Passes.simplify.options, o.name = "rounds" ∧ Passes.simplify.Settles o mixedArguments (.number (-2))) ∧
    (∃ o ∈ Passes.simplify.options, o.name = "max-atoms" ∧ Passes.simplify.Settles o mixedArguments (.number 4)) ∧
    (∃ o ∈ Passes.lower.options, o.name = "validate" ∧ Passes.lower.Settles o mixedArguments (.flag true)) ∧
    (Settings.ofArguments mixedArguments).1.rounds = 3 ∧
    (Settings.ofArguments mixedArguments).1.ReadFrom mixedArguments := by
  obtain ⟨hvalues, hread, hnegative⟩ := settings_follow_arguments mixedArguments
  have hrounds : (Passes.simplify.settings mixedArguments).1.get? "rounds" = some (.number (-2)) := by decide +kernel
  have hmaxAtoms : (Passes.simplify.settings mixedArguments).1.get? "max-atoms" = some (.number 4) := by decide +kernel
  have hvalidate : (Passes.lower.settings mixedArguments).1.get? "validate" = some (.flag true) := by decide +kernel
  obtain ⟨hkeys, hsettles⟩ := hvalues Passes.simplify (by simp)
  obtain ⟨-, hsettles'⟩ := hvalues Passes.lower (by simp)
  have hmem : ⟨"rounds", _, .number 3⟩ ∈ Passes.simplify.options := List.mem_cons_of_mem _ List.mem_cons_self
  exact ⟨hkeys, ⟨_, hmem, rfl, (hsettles _ hmem _).1 hrounds⟩,
    ⟨_, List.mem_cons_self, rfl, (hsettles _ List.mem_cons_self _).1 hmaxAtoms⟩,
    ⟨_, List.mem_cons_self, rfl, (hsettles' _ List.mem_cons_self _).1 hvalidate⟩,
    (hnegative (-2) (by decide)).2 hrounds, hread⟩

end Sequencer
