import ApiGraph.Bundle
import ApiGraph.Canonical.Exclusion
import ApiGraph.Canonical.Hoist
import ApiGraph.Canonical.Titles
import ApiGraph.Canonical.Uplift
import ApiGraph.Graph.Hydrate
import ApiGraph.Merge

/-! From fragments to a graph: the fragments are merged, references into other files brought in,
excluded paths taken out, shared path items uplifted, schemas hoisted when that is wanted, and
titles defaulted; then the graph is built. -/
namespace ApiGraph.Pipeline
open Json

structure Options where
  externals : List (String × Value)
  excluded : List String
  hoist : Option Hoist.Mode

structure Prepared where
  doc : Value
  report : Option Hoist.Report

def hoisted (mode : Option Hoist.Mode) (doc : Value) : Value × Option Hoist.Report :=
  match mode with
  | some m =>
    let (doc', report) := Hoist.hoist m doc
    (doc', some report)
  | none => (doc, none)

def prepare (fragments : List Value) (o : Options) : Except Failure Prepared := do
  let bundled ← Bundle.internalize (Merge.mergeFragments fragments) o.externals
  let kept := (Exclusion.exclude o.excluded bundled).1
  match Uplift.uplift kept with
  | (_, .error e) => .error (.resolve e)
  | (uplifted, .ok _) =>
    let (doc, report) := hoisted o.hoist uplifted
    .ok ⟨(Titles.defaultTitles doc).1, report⟩

structure Generated where
  graph : Graph
  doc : Value
  report : Option Hoist.Report

def generate (fragments : List Value) (o : Options) (c : Config) : Except Failure Generated := do
  let p ← prepare fragments o
  match Build.build c p.doc with
  | (doc, .ok g) => .ok ⟨g, doc, p.report⟩
  | (_, .error e) => .error e

end ApiGraph.Pipeline
