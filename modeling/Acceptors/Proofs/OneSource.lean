import Acceptors.Builder
import Acceptors.Proofs.Faults

/-!
# Exactly one source

A builder takes settings and sources in any order and number, and only when it builds does it say
whether there was one source. It need not keep more than the first source and whether there has been
another: no later call can take the second one back, and no source is looked at before they are
counted. So errors in the sources never hide that there are too many, and the settings that count
are the last ones, given before or behind the source.

The readers have errors of their own, which differ from those about the number of sources.

Results:
* `Source.neverCounts_load`: no reader fails because of the number of sources.
* `Keeper`, `Keeper.build_ofCalls`: a builder that keeps the first source alone builds the same.
* `Builder.sources_ofCalls`, `Builder.config_ofCalls`: what the calls leave.
* `Source.LoadsByKind`, `Source.loadsByKind_load`: what each kind of source is read with.
* `Builder.build_honours_one_source`: what is built after any calls.
-/

namespace Acceptors

variable {config : Config} {text : String}

/-! ## Errors of the readers -/

/-- Whether an error is about the number of sources. -/
def SourceError.counts : SourceError → Bool
  | conflictingSources | missingSource => true
  | table _ _ | grammar _ _ | unreadable | automaton _ | reservedSymbol _ | invalidSymbol _
  | invalidStateName _ => false

namespace Except

variable {α β ε : Type} {x : Except SourceError α}

/-- What is attempted does not fail because of the number of sources. -/
def NeverCounts (x : Except SourceError α) : Prop := ∀ e, x = .error e → e.counts = false

theorem NeverCounts.ok {a : α} : NeverCounts (.ok a) := nofun

theorem NeverCounts.error {e : SourceError} (h : e.counts = false) :
    NeverCounts (.error e : Except SourceError α) := by
  rintro _ ⟨⟩
  exact h

theorem NeverCounts.bind {f : α → Except SourceError β} (hx : NeverCounts x)
    (hf : ∀ a, NeverCounts (f a)) : NeverCounts (x >>= f) := by
  intro e h
  rcases bind_eq_error_iff.1 h with h | ⟨a, -, h⟩
  · exact hx e h
  · exact hf a e h

theorem NeverCounts.map {f : α → β} (hx : NeverCounts x) : NeverCounts (x.map f) :=
  fun e h => hx e (map_eq_error_iff.1 h)

theorem NeverCounts.mapError {x : Except ε α} {f : ε → SourceError}
    (hf : ∀ fault, (f fault).counts = false) : NeverCounts (x.mapError f) := by
  intro e h
  obtain ⟨fault, -, rfl⟩ := mapError_eq_error_iff.1 h
  exact hf fault

theorem NeverCounts.mapM {l : List β} {f : β → Except SourceError α}
    (hf : ∀ b, NeverCounts (f b)) : NeverCounts (l.mapM f) := by
  induction l with
  | nil => exact .ok
  | cons b l ih =>
    rw [List.mapM_cons]
    exact (hf b).bind fun _ => ih.bind fun _ => .ok

end Except

open Acceptors.Except (NeverCounts)

theorem Table.neverCounts_parse : NeverCounts (parse config text) := by
  rw [parse]
  split
  · exact .error rfl
  · refine .bind (.mapError fun _ => rfl) fun alphabet => ?_
    split
    · exact .error rfl
    · dsimp only
      split
      · exact .error rfl
      · refine .bind ?_ fun _ => .ok
        rw [readRows_eq_readLines]
        exact .mapError fun _ => rfl

theorem Grammar.neverCounts_parse : NeverCounts (parse config text) := by
  rw [parse]
  split
  · exact .error rfl
  · refine .bind (.mapError fun _ => rfl) fun terminals => ?_
    split
    · exact .error rfl
    · refine .bind (.mapError fun _ => rfl) fun nonterminals => ?_
      split
      · exact .error rfl
      · dsimp only
        split
        · exact .error rfl
        · refine .bind ?_ fun _ => .ok
          rw [readRules_eq_readLines]
          exact .mapError fun _ => rfl

theorem Grammar.Rule.neverCounts_edge {alphabet : Alphabet} {nonterminals : List String}
    {final : String} {rule : Rule} : NeverCounts (rule.edge alphabet nonterminals final) := by
  have hstate : ∀ x, NeverCounts (if x ∈ nonterminals then Except.ok x
      else throw (SourceError.invalidStateName x)) := by
    intro x
    split
    · exact .ok
    · exact .error rfl
  refine .bind (hstate _) fun source => ?_
  split
  · refine .bind ?_ fun _ => .bind (hstate _) fun _ => .ok
    dsimp only
    split
    · exact .ok
    · exact .error rfl
  · refine .bind ?_ fun _ => .ok
    dsimp only
    split
    · exact .ok
    · exact .error rfl
  · exact .ok
  · exact .bind (hstate _) fun _ => .ok

theorem Grammar.neverCounts_toNfa {g : Grammar} : NeverCounts (g.toNfa config) :=
  .bind (.mapError fun _ => rfl) fun _ => .bind (.mapM fun _ => Rule.neverCounts_edge) fun _ => .ok

namespace Source

theorem neverCounts_loadGrammar : NeverCounts (loadGrammar config text) :=
  Grammar.neverCounts_parse.bind fun _ => Grammar.neverCounts_toNfa

theorem neverCounts_textOf {contents : Option ByteArray} : NeverCounts (textOf contents) := by
  rw [textOf]
  split
  · exact .ok
  · exact .error rfl

/-- No reader fails because of the number of sources. -/
theorem neverCounts_load {source : Source} : NeverCounts (source.load config) := by
  cases source with
  | definition d => exact .mapError fun _ => rfl
  | table text => exact Table.neverCounts_parse.map
  | grammar text => exact neverCounts_loadGrammar
  | tableFile contents => exact neverCounts_textOf.bind fun _ => Table.neverCounts_parse.map
  | grammarFile contents => exact neverCounts_textOf.bind fun _ => neverCounts_loadGrammar
  | pattern text => exact .mapError fun _ => rfl

/-! ## Kinds of sources -/

variable {contents : Option ByteArray}

/-- The text of a file that can be read. -/
theorem textOf_eq_ok (h : contents.bind String.fromUTF8? = some text) :
    textOf contents = .ok text := by
  rw [textOf, h]

/-- A file that is missing or that is no UTF-8 has no text. -/
theorem textOf_eq_error (h : contents.bind String.fromUTF8? = none) :
    textOf contents = .error .unreadable := by
  rw [textOf, h]

/-- The function reads a source of each kind by the reader of this kind. -/
structure LoadsByKind (config : Config) (load : Source → Except SourceError Nfa) : Prop where
  /-- A definition is made an automaton as it stands. -/
  definition : ∀ d, load (.definition d) = (d.toNfa config).mapError .automaton
  /-- A table is read, and gives the automaton that it describes. -/
  table : ∀ text, load (.table text) = (Table.parse config text).map Table.toNfa
  /-- A grammar is read and then made an automaton. -/
  grammar : ∀ text, load (.grammar text) = Grammar.parse config text >>= (·.toNfa config)
  /-- A new compiler, which numbers its states from zero, compiles the pattern. -/
  pattern : ∀ text, load (.pattern text) =
    (Compiler.compile { config := config, next := 0 } text).1.mapError .automaton
  /-- A file that can be read gives what its text gives. -/
  file : ∀ contents text, contents.bind String.fromUTF8? = some text →
    load (.tableFile contents) = load (.table text) ∧
      load (.grammarFile contents) = load (.grammar text)
  /-- A file that cannot be read is refused as such. -/
  unreadable : ∀ contents, contents.bind String.fromUTF8? = none →
    load (.tableFile contents) = .error .unreadable ∧
      load (.grammarFile contents) = .error .unreadable

/-- Every source is read by the reader of its kind. -/
theorem loadsByKind_load (config : Config) : LoadsByKind config (load config) where
  definition _ := rfl
  table _ := rfl
  grammar _ := rfl
  pattern _ := rfl
  file contents text h := by
    show (textOf contents >>= Table.load config) = _ ∧ (textOf contents >>= loadGrammar config) = _
    rw [textOf_eq_ok h]
    exact ⟨rfl, rfl⟩
  unreadable contents h := by
    show (textOf contents >>= Table.load config) = _ ∧ (textOf contents >>= loadGrammar config) = _
    rw [textOf_eq_error h]
    exact ⟨rfl, rfl⟩

end Source

/-! ## What the calls leave -/

namespace Builder

variable {calls front back : List Call} {call : Call} {source other : Source}

/-- The settings of a call, if it gives any. -/
def Call.config? : Call → Option Config
  | .configure config => some config
  | .source _ => none

/-- The source of a call, if it gives one. -/
def Call.source? : Call → Option Source
  | .configure _ => none
  | .source source => some source

/-- The settings of the last call that gives any, and otherwise those by default. -/
def lastConfig (calls : List Call) : Config := (calls.filterMap Call.config?).getLast?.getD {}

/-- The sources of the calls, in order. -/
def sourcesOf (calls : List Call) : List Source := calls.filterMap Call.source?

theorem lastConfig_append_configure {config : Config} :
    lastConfig (calls ++ [.configure config]) = config := by
  rw [lastConfig, List.filterMap_append, List.getLast?_append]
  rfl

theorem lastConfig_append_source : lastConfig (calls ++ [.source source]) = lastConfig calls := by
  rw [lastConfig, List.filterMap_append, List.getLast?_append]
  rfl

theorem sourcesOf_append : sourcesOf (front ++ back) = sourcesOf front ++ sourcesOf back :=
  List.filterMap_append

theorem sourcesOf_append_configure {config : Config} :
    sourcesOf (calls ++ [.configure config]) = sourcesOf calls := by
  rw [sourcesOf_append]
  exact List.append_nil _

theorem sourcesOf_append_source :
    sourcesOf (calls ++ [.source source]) = sourcesOf calls ++ [source] := sourcesOf_append

theorem ofCalls_append_singleton : ofCalls (calls ++ [call]) = (ofCalls calls).apply call := by
  rw [ofCalls, List.foldl_append]
  rfl

theorem config_ofCalls : (ofCalls calls).config = lastConfig calls := by
  induction calls using List.reverseRecOn with
  | nil => rfl
  | append_singleton calls call ih =>
    rw [ofCalls_append_singleton]
    cases call with
    | configure config => exact lastConfig_append_configure.symm
    | source source => exact ih.trans lastConfig_append_source.symm

theorem sources_ofCalls : (ofCalls calls).sources = (sourcesOf calls).reverse := by
  induction calls using List.reverseRecOn with
  | nil => rfl
  | append_singleton calls call ih =>
    rw [ofCalls_append_singleton]
    cases call with
    | configure config => rw [sourcesOf_append_configure, ← ih]; rfl
    | source source => rw [sourcesOf_append_source, List.reverse_concat, ← ih]; rfl

/-- The last settings count, and all sources. -/
theorem build_ofCalls :
    (ofCalls calls).build = match sourcesOf calls with
      | [] => .error .missingSource
      | [source] => source.load (lastConfig calls)
      | _ :: _ :: _ => .error .conflictingSources := by
  rw [build, config_ofCalls, sources_ofCalls]
  match sourcesOf calls with
  | [] | [_] => rfl
  | first :: second :: rest =>
    -- whatever the last two sources are, there are two
    cases hlast : (first :: second :: rest).reverse with
    | nil => simp at hlast
    | cons last before =>
      cases before with
      | nil =>
        have hlength := congrArg List.length hlast
        simp at hlength
      | cons => rfl

/-! ## Builders that keep one source -/

/-- A builder that keeps its first source, and whether there has been another (`Builder`). -/
structure Keeper where
  /-- The settings. -/
  config : Config := {}
  /-- The first source. -/
  source : Option Source := none
  /-- Whether there has been another source. -/
  conflict : Bool := false

namespace Keeper

/-- Makes a call (`config` and `source`). -/
def apply (k : Keeper) : Call → Keeper
  | .configure config => { k with config := config }
  | .source source =>
    if k.source.isSome then { k with conflict := true } else { k with source := some source }

/-- The builder after some calls, made in order on a new one. -/
def ofCalls (calls : List Call) : Keeper := calls.foldl apply {}

/-- Builds the automaton of the first source, unless there has been another (`build`). -/
def build (k : Keeper) : Except SourceError Nfa :=
  if k.conflict then .error .conflictingSources
  else
    match k.source with
    | none => .error .missingSource
    | some source => source.load k.config

/-- What the builder knows of the calls. -/
structure Keeps (calls : List Call) (k : Keeper) : Prop where
  config_eq : k.config = lastConfig calls
  source_eq : k.source = (sourcesOf calls).head?
  conflict_iff : k.conflict = true ↔ 2 ≤ (sourcesOf calls).length

variable {k : Keeper}

/-- A call is remembered, as far as it matters. -/
theorem Keeps.apply (h : Keeps calls k) (call : Call) : Keeps (calls ++ [call]) (k.apply call) := by
  cases call with
  | configure config =>
    refine ⟨lastConfig_append_configure.symm, ?_, ?_⟩ <;> rw [sourcesOf_append_configure]
    · exact h.source_eq
    · exact h.conflict_iff
  | source source =>
    have hsource := h.source_eq
    have hconflict := h.conflict_iff
    rw [Keeper.apply]
    cases hsources : sourcesOf calls with
    | nil =>
      rw [hsources] at hsource hconflict
      rw [hsource]
      refine ⟨h.config_eq.trans lastConfig_append_source.symm, ?_, ?_⟩ <;>
        rw [sourcesOf_append_source, hsources]
      · rfl
      · exact hconflict.trans (by simp)
    | cons first rest =>
      rw [hsources] at hsource
      rw [hsource]
      refine ⟨h.config_eq.trans lastConfig_append_source.symm, ?_, ?_⟩ <;>
        rw [sourcesOf_append_source, hsources]
      · rfl
      · simp

theorem keeps_ofCalls (calls : List Call) : Keeps calls (ofCalls calls) := by
  induction calls using List.reverseRecOn with
  | nil => exact ⟨rfl, rfl, by simp [ofCalls, sourcesOf]⟩
  | append_singleton calls call ih =>
    rw [ofCalls, List.foldl_append]
    exact ih.apply call

/-- A builder need not keep more than one source. -/
theorem build_ofCalls : (ofCalls calls).build = (Builder.ofCalls calls).build := by
  obtain ⟨hconfig, hsource, hconflict⟩ := keeps_ofCalls calls
  rw [Builder.build_ofCalls, build, hconfig, hsource]
  match hsources : sourcesOf calls with
  | [] | [_] =>
    rw [hsources] at hconflict
    rw [if_neg (hconflict.not.2 (by simp))]
    rfl
  | _ :: _ :: _ =>
    rw [hsources] at hconflict
    exact if_pos (hconflict.2 (by simp))

end Keeper

/-! ## What is built -/

/-- Sources that are read alike can take each other's place. -/
theorem build_ofCalls_congr (h : ∀ config, source.load config = other.load config) :
    (ofCalls (front ++ .source source :: back)).build =
      (ofCalls (front ++ .source other :: back)).build := by
  have hconfig : lastConfig (front ++ .source source :: back) =
      lastConfig (front ++ .source other :: back) := by
    simp only [lastConfig, List.filterMap_append, List.filterMap_cons, Call.config?]
  have hsources : ∀ s, sourcesOf (front ++ .source s :: back) =
      sourcesOf front ++ s :: sourcesOf back := fun _ => sourcesOf_append
  rw [build_ofCalls, build_ofCalls, hconfig, hsources, hsources]
  match sourcesOf front, sourcesOf back with
  | [], [] => exact h _
  | [], _ :: _ | [_], _ | _ :: _ :: _, _ => rfl

/-- Without a call for a source, a builder has no source. With two or more it has too many, whatever
    they say, be they the same or not to be read. With one, it gives what the reader for its kind
    gives under the settings of the last call for settings, wherever this call stands. It is enough
    to keep the first source and whether there was another, and the text of a file can be given in
    place of the file. -/
theorem build_honours_one_source (calls : List Call) :
    ((ofCalls calls).build = .error .missingSource ↔ sourcesOf calls = []) ∧
    ((ofCalls calls).build = .error .conflictingSources ↔ 2 ≤ (sourcesOf calls).length) ∧
    (∀ source, sourcesOf calls = [source] →
      (ofCalls calls).build = source.load (lastConfig calls)) ∧
    Source.LoadsByKind (lastConfig calls) (Source.load (lastConfig calls)) ∧
    (Keeper.ofCalls calls).build = (ofCalls calls).build ∧
    ∀ front back contents text, String.fromUTF8? contents = some text →
      (calls = front ++ .source (.tableFile (some contents)) :: back →
        (ofCalls calls).build = (ofCalls (front ++ .source (.table text) :: back)).build) ∧
      (calls = front ++ .source (.grammarFile (some contents)) :: back →
        (ofCalls calls).build = (ofCalls (front ++ .source (.grammar text) :: back)).build) := by
  have hread : ∀ source : Source, ∀ config e, source.load config = .error e → e.counts = false :=
    fun _ _ e h => Source.neverCounts_load e h
  refine ⟨?_, ?_, fun source hsource => ?_, Source.loadsByKind_load _, Keeper.build_ofCalls,
    fun front back contents text htext => ⟨?_, ?_⟩⟩
  · rw [build_ofCalls]
    match sourcesOf calls with
    | [] => exact iff_of_true rfl rfl
    | [source] => exact iff_of_false (fun h => nomatch hread source _ _ h) nofun
    | _ :: _ :: _ => exact iff_of_false nofun nofun
  · rw [build_ofCalls]
    match sourcesOf calls with
    | [] => exact iff_of_false nofun (by simp)
    | [source] => exact iff_of_false (fun h => nomatch hread source _ _ h) (by simp)
    | _ :: _ :: _ => exact iff_of_true rfl (by simp)
  · rw [build_ofCalls, hsource]
  · rintro rfl
    exact build_ofCalls_congr fun config =>
      ((Source.loadsByKind_load config).file (some contents) text htext).1
  · rintro rfl
    exact build_ofCalls_congr fun config =>
      ((Source.loadsByKind_load config).file (some contents) text htext).2

/-- Settings behind the source, two sources that are the same and malformed, settings alone, and the
    file of a table between settings. -/
theorem build_honours_one_source_mixed :
    let late : Config := { statePrefix := "r" }
    let file := Source.tableFile (some "a\nq\n[q],{q}".toUTF8)
    (ofCalls [.configure {}, .source (.pattern "a"), .configure late]).build =
        (Source.pattern "a").load late ∧
      (ofCalls [.source (.pattern "("), .configure late, .source (.pattern "(")]).build =
        .error .conflictingSources ∧
      (ofCalls [.configure late]).build = .error .missingSource ∧
      (ofCalls [.configure {}, .source file, .configure late]).build =
        (ofCalls [.configure {}, .source (.table "a\nq\n[q],{q}"), .configure late]).build := by
  intro late file
  have hutf8 : String.fromUTF8? "a\nq\n[q],{q}".toUTF8 = some "a\nq\n[q],{q}" := by
    rw [String.toUTF8_eq_toByteArray]
    exact dif_pos (String.isValidUTF8 _)
  obtain ⟨-, -, hone, -⟩ := build_honours_one_source
    [.configure {}, .source (.pattern "a"), .configure late]
  obtain ⟨-, htwo, -⟩ := build_honours_one_source
    [.source (.pattern "("), .configure late, .source (.pattern "(")]
  obtain ⟨hnone, -⟩ := build_honours_one_source [.configure late]
  obtain ⟨-, -, -, -, -, hfile⟩ := build_honours_one_source
    [.configure {}, .source file, .configure late]
  exact ⟨hone _ rfl, htwo.2 (by decide), hnone.2 rfl,
    (hfile [.configure {}] [.configure late] _ _ hutf8).1 rfl⟩

end Builder

end Acceptors
