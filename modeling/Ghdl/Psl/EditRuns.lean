import Ghdl.Psl.Ownership

/-! # Runs of edits -/

namespace Ghdl.Psl.Tables

/-- An edit of states and edges in use. -/
inductive Edit (t : Tables) : Tables → Prop
  | addState (n : Nfa) : Edit t (t.addState n).2.2
  | addEdge {s d} (src : t.Allocated s) (dest : t.Allocated d) (x) : Edit t (t.addEdge s d x).2
  | removeEdge {e t'} (live : t.Live e) (ran : t.removeEdge e = .ok t') : Edit t t'
  | removeState {n n' s t'} (used : t.Allocated s) (ran : t.removeState n s = .ok (n', t')) : Edit t t'
  | redestEdges {d} (used : t.Allocated d) (s) : Edit t (t.redestEdges s d)
  | resourceEdges {d} (used : t.Allocated d) (s) : Edit t (t.resourceEdges s d)

theorem Edit.sound {t t' : Tables} (edit : Edit t t') (sound : t.Sound) : t'.Sound := by
  cases edit with
  | addState n => exact (sound.addState n).sound
  | addEdge src dest x => exact (sound.addEdge src dest x).sound
  | removeEdge live ran =>
    obtain ⟨_, run, removes⟩ := sound.removeEdge live
    cases run.symm.trans ran
    exact removes.sound
  | removeState used ran =>
    obtain ⟨_, _, run, removes⟩ := sound.removeState _ used
    cases run.symm.trans ran
    exact removes.sound
  | redestEdges used s => exact (sound.redestEdges used).sound
  | resourceEdges used s => exact (sound.resourceEdges used).sound

end Ghdl.Psl.Tables
