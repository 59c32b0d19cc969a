import WebFonts.Proofs.Command.Store
import WebFonts.Proofs.Injection.Outcome
import WebFonts.Proofs.SourceMap.Json
import WebFonts.Proofs.SourceMap.Lookup

/-! # Maps next to outputs

A command that injects rules leaves the map of its output next to it. -/

namespace WebFonts.Command

open Injection (Discovery Output)
open Text (BeginsAt FitsIn32Bits)

/-- A map holds an input and leads to it from a text that shows the input behind something else:
from where a character is shown to where it stands in the input. -/
structure LeadsBack (map : SourceMap) (input : String) (text : List Char) : Prop where
  contents : map.sourcesContent = [some input]
  exists_insertion : ∃ insertion, text = insertion ++ input.toList ∧
    (FitsIn32Bits text → ∀ line column place, map.sourceOf? line column = some place ↔
      ∃ i, BeginsAt text (insertion.length + i) (line, column) ∧ BeginsAt input.toList i place)

theorem leadsBack_sourceMap (text : Prepended) (source file : Option String) :
    LeadsBack (text.sourceMap source file true) text.body text.display.toList :=
  ⟨rfl, text.insertion.toList, String.toList_append, fun hfits =>
    Prepended.sourceOf?_sourceMap hfits source file true⟩

/-- What is injected leaves a text other than the input, and a map that leads back to it. -/
theorem leadsBack_of_outputOf {options : Injection.Options} {rules : List String} {code : String}
    {output : Output} (h : Injection.outputOf options rules code = some output)
    (file : Option String) :
    output.code ≠ code ∧ LeadsBack { output.map with file } code output.code.toList := by
  cases rules with
  | nil => contradiction
  | cons rule rules =>
    obtain rfl := Option.some.inj h
    refine ⟨?_, leadsBack_sourceMap ⟨code, Injection.joinRules (rule :: rules)⟩ _ file⟩
    intro hsame
    have hlength := congrArg (fun text : String => text.toList.length) hsame
    simp only [Injection.joinRules_cons, String.toList_append, List.length_append] at hlength
    have hfeed : "\n".toList.length = 1 := rfl
    omega

theorem leadsBack_of_transform {schedule : List Discovery → List Discovery}
    (hperm : ∀ found, (schedule found).Perm found) {plugin : Plugin} {code id : String}
    {output : Output} (h : plugin.transformBy schedule code id = .ok (some output))
    (file : Option String) :
    output.code ≠ code ∧ LeadsBack { output.map with file } code output.code.toList := by
  rw [Plugin.transformBy, Injection.run_eq _ _ (hperm _)] at h
  split at h
  · contradiction
  · split at h
    · contradiction
    · exact leadsBack_of_outputOf (Except.ok.inj h) file

/-! ## Running on a store -/

theorem run_bind {α β : Type} (first : StateM Store α) (next : α → StateM Store β)
    (store : Store) :
    (first >>= next).run store = (next (first.run store).1).run (first.run store).2 := rfl

theorem run_read (store : Store) (path : String) :
    (Store.access.read path).run store = (store.read path, store) := rfl

theorem run_write (store : Store) (path text : String) :
    (Store.access.write path text).run store =
      match store.write path text with
      | none => (false, store)
      | some written => (true, written) := by
  have hrun : (Store.access.write path text).run store =
      (match store.write path text with
        | none => pure false
        | some written => do
          set written
          return true : StateM Store Bool).run store := rfl
  rw [hrun]
  cases store.write path text <;> rfl

theorem run_readConfig (store : Store) (path : Option String) :
    ((readConfig Store.access path).run store).2 = store := by
  cases path with
  | none => rfl
  | some path =>
    rw [readConfig, run_bind, run_read]
    cases store.read path with
    | none => rfl
    | some text =>
      dsimp only
      cases Config.parse text <;> rfl

/-- With a map wanted, the output is written first and the map, if there is one, after it. -/
theorem run_deliver (store : Store) {arguments : Arguments} {path : String} (code : String)
    (output : Option Output) (houtput : arguments.output = some path)
    (hmap : arguments.sourceMap = true) :
    (deliver Store.access arguments code output).run store =
      match store.write path ((output.map (·.code)).getD code), output with
      | none, _ => (.error (.file path), store)
      | some written, none => (.ok "", written)
      | some written, some output =>
        match written.write (path ++ ".map")
            ({ output.map with file := fileName? path } : SourceMap).toJson.render with
        | none => (.error (.file (path ++ ".map")), written)
        | some last => (.ok "", last) := by
  unfold deliver
  simp only [houtput, hmap]
  rw [run_bind, run_write]
  cases store.write path ((output.map (·.code)).getD code) with
  | none => rfl
  | some written =>
    cases output with
    | none => rfl
    | some output =>
      dsimp only
      rw [if_neg (by simp), run_bind, run_write]
      cases written.write (path ++ ".map")
          ({ output.map with file := fileName? path } : SourceMap).toJson.render <;> rfl

/-- Behind a delivery that succeeds, the output holds the text. The map is next to it if there is
one, and otherwise that file is as it was. -/
theorem read_of_deliver {store store' : Store} {arguments : Arguments} {path code printed : String}
    {output : Option Output} (houtput : arguments.output = some path)
    (hmap : arguments.sourceMap = true)
    (h : (deliver Store.access arguments code output).run store = (.ok printed, store')) :
    store'.read path = some ((output.map (·.code)).getD code) ∧
      store'.read (path ++ ".map") =
        match output with
        | none => store.read (path ++ ".map")
        | some output =>
          some ({ output.map with file := fileName? path } : SourceMap).toJson.render := by
  rw [run_deliver store code output houtput hmap] at h
  cases hwrite : store.write path ((output.map (·.code)).getD code) with
  | none =>
    rw [hwrite] at h
    cases h
  | some written =>
    rw [hwrite] at h
    obtain ⟨file, hfile, -⟩ := Store.exists_locate?_of_write hwrite
    have hne : store.locate? (path ++ ".map") ≠ store.locate? path :=
      Store.locate?_append_ne hfile (by decide) (by decide)
    cases output with
    | none =>
      obtain rfl := (Prod.mk.inj h).2
      exact ⟨Store.read_write_self hwrite, Store.read_write_of_ne hwrite hne⟩
    | some output =>
      dsimp only at h
      cases hlast : written.write (path ++ ".map")
          ({ output.map with file := fileName? path } : SourceMap).toJson.render with
      | none =>
        rw [hlast] at h
        cases h
      | some last =>
        rw [hlast] at h
        obtain rfl := (Prod.mk.inj h).2
        have hne' : written.locate? path ≠ written.locate? (path ++ ".map") := by
          rw [Store.locate?_write hwrite, Store.locate?_write hwrite]
          exact hne.symm
        exact ⟨(Store.read_write_of_ne hlast hne').trans (Store.read_write_self hwrite),
          Store.read_write_self hlast⟩

/-- A command that succeeds has read an input and delivers what the plugin makes of it. -/
theorem exists_delivery {store store' : Store} {schedule : List Discovery → List Discovery}
    {arguments : Arguments} {printed : String}
    (h : (run Store.access schedule arguments).run store = (.ok printed, store')) :
    ∃ (plugin : Plugin) (code : String) (output : Option Output),
      store.read arguments.input = some code ∧
      plugin.transformBy schedule code arguments.input = .ok output ∧
      (deliver Store.access arguments code output).run store = (.ok printed, store') := by
  unfold run at h
  rw [run_bind, run_readConfig] at h
  split at h
  · cases h
  · rename_i config _
    cases hplugin : plugin config arguments.order with
    | error failure =>
      rw [hplugin] at h
      cases h
    | ok plugin =>
      rw [hplugin] at h
      dsimp only at h
      rw [run_bind, run_read] at h
      cases hread : store.read arguments.input with
      | none =>
        rw [hread] at h
        cases h
      | some code =>
        rw [hread] at h
        dsimp only at h
        cases houtput : plugin.transformBy schedule code arguments.input with
        | error failure =>
          rw [houtput] at h
          cases h
        | ok output =>
          rw [houtput] at h
          exact ⟨plugin, code, output, rfl, houtput, h⟩

/-! ## Maps on a store -/

/-- A command that writes an output and is asked for a map leaves one that leads back to the input
where it has injected anything, in whatever order the families are answered. Where it has not, the
output is the input and the file of the map is left as it was. -/
theorem leadsBack_of_execute {store store' : Store} {schedule : List Discovery → List Discovery}
    (hperm : ∀ found, (schedule found).Perm found) {arguments : List String} {parsed : Arguments}
    {path printed : String} (hparse : Arguments.parse arguments = .ok parsed)
    (houtput : parsed.output = some path) (hmap : parsed.sourceMap = true)
    (h : (executeBy Store.access schedule arguments).run store = (.ok printed, store')) :
    ∃ code text, store.read parsed.input = some code ∧ store'.read path = some text ∧
      (text = code ∧ store'.read (path ++ ".map") = store.read (path ++ ".map") ∨
        text ≠ code ∧ ∃ rendered map, store'.read (path ++ ".map") = some rendered ∧
          SourceMap.parse rendered = .ok map ∧ map.file = fileName? path ∧
          LeadsBack map code text.toList) := by
  rw [executeBy, hparse] at h
  obtain ⟨plugin, code, output, hread, htransform, hdeliver⟩ := exists_delivery h
  obtain ⟨htext, hfile⟩ := read_of_deliver houtput hmap hdeliver
  cases output with
  | none => exact ⟨code, code, hread, htext, .inl ⟨rfl, hfile⟩⟩
  | some output =>
    obtain ⟨hchanged, hback⟩ := leadsBack_of_transform hperm htransform (fileName? path)
    exact ⟨code, output.code, hread, htext,
      .inr ⟨hchanged, _, _, hfile, SourceMap.run_render _, rfl, hback⟩⟩

/-- An input that uses two families, and a configuration that has both. -/
def injectingStore : Store :=
  ⟨[(["in.css"], some "a\x7bfont-family:X,Y\x7d"),
    (["fonts.json"], some ("\x7b\"families\":[" ++
      "\x7b\"name\":\"X\",\"faces\":\x7b\"src\":\"x\"\x7d\x7d," ++
      "\x7b\"name\":\"Y\",\"faces\":\x7b\"src\":\"y\"\x7d\x7d]\x7d"))]⟩

/-- What the input becomes when the families are answered from the last to the first. -/
def injectedText : String :=
  "@font-face \x7b\n  font-family: 'X';\n  src: local(\"x\");\n  font-display: swap;\n\x7d\n" ++
    "@font-face \x7b\n  font-family: 'Y';\n  src: local(\"y\");\n  font-display: swap;\n\x7d\n" ++
    "a\x7bfont-family:X,Y\x7d"

def injectingArguments : List String :=
  ["in.css", "-c", "fonts.json", "-o", "out.css", "--source-map"]

theorem eq_of_toOption {outcome : Result × Store} {text : String}
    (h : outcome.1.toOption = some text) : outcome = (.ok text, outcome.2) := by
  obtain ⟨_ | printed, store⟩ := outcome
  · contradiction
  · rw [Option.some.inj h]

/-- Rules for two families are injected, and their map leads back to the input. -/
theorem leadsBack_of_execute_injecting :
    ∃ store' rendered map,
      (executeBy Store.access List.reverse injectingArguments).run injectingStore =
        (.ok "", store') ∧
      store'.read "out.css.map" = some rendered ∧ SourceMap.parse rendered = .ok map ∧
      map.file = some "out.css" ∧
      LeadsBack map "a\x7bfont-family:X,Y\x7d" injectedText.toList := by
  have hparse : Arguments.parse injectingArguments =
      .ok ⟨"in.css", some "fonts.json", some "out.css", true, none⟩ := rfl
  have hrun := @eq_of_toOption
    ((executeBy Store.access List.reverse injectingArguments).run injectingStore) ""
    (by decide +kernel)
  have houtput : ((executeBy Store.access List.reverse injectingArguments).run
      injectingStore).2.read "out.css" = some injectedText := by decide +kernel
  obtain ⟨code, text, hcode, htext, hmap⟩ :=
    leadsBack_of_execute List.reverse_perm hparse rfl rfl hrun
  obtain rfl : "a\x7bfont-family:X,Y\x7d" = code := Option.some.inj hcode
  obtain rfl : injectedText = text := Option.some.inj (houtput.symm.trans htext)
  rcases hmap with ⟨hsame, -⟩ | ⟨-, rendered, map, hrendered, hread, hfile, hback⟩
  · exact absurd hsame (by decide)
  · exact ⟨_, rendered, map, hrun, hrendered, hread, hfile, hback⟩

/-- An input that uses no family, next to a file where its map would be written. -/
def staleStore : Store := ⟨[(["in.css"], some "a\x7b\x7d"), (["out.css.map"], some "stale")]⟩

def unchangedArguments : List String := ["in.css", "-o", "out.css", "--source-map"]

/-- Where nothing is injected no map is written: a file of that name stays, whatever it holds, and
none is made. -/
theorem execute_leaves_stale_map :
    (∃ store', (execute Store.access unchangedArguments).run staleStore = (.ok "", store') ∧
      store'.read "out.css" = some "a\x7b\x7d" ∧ store'.read "out.css.map" = some "stale" ∧
      (SourceMap.parse "stale").toOption = none) ∧
    ∃ store', (execute Store.access unchangedArguments).run ⟨[(["in.css"], some "a\x7b\x7d")]⟩ =
        (.ok "", store') ∧
      store'.read "out.css" = some "a\x7b\x7d" ∧ store'.read "out.css.map" = none := by
  refine ⟨⟨_, eq_of_toOption (by decide +kernel), ?_, ?_, ?_⟩, _,
    eq_of_toOption (by decide +kernel), ?_, ?_⟩ <;> decide +kernel

end WebFonts.Command
