import Mathlib.Tactic.Common

/-!
# A queue and the signal that someone looks at it

Producers put first and raise the signal second; the consumer finds the queue
empty first and clears the signal second. A `Signal` is what one observer sees
of this: the queue has work, the signal is up, some producer is about to raise
it, the consumer is about to clear it. Nothing is forgotten as long as no
producer raises the signal of a queue with work that the consumer is about to
clear.
-/

namespace GalaLua.Library

structure Signal where
  work : Prop
  up : Prop
  raising : Prop
  clearing : Prop

/-- What one step may do to a signal. -/
inductive Signal.Step (b b' : Signal) : Prop
  /-- Nothing is taken back: new work has a producer on its way, and a
  consumer sets out to clear only without work. -/
  | keep (hw : b'.work → b.work ∨ b'.raising) (hu : b.up → b'.up) (hr : b.raising → b'.raising)
      (hc : b'.clearing → b'.work → b.clearing)
  | raise (hw : b'.work → b.work) (hu : b'.up) (hc : b'.clearing → b.clearing)
      (hsafe : ¬ (b.work ∧ b.clearing))
  | clear (hw : b'.work → b.work) (hr : b.raising → b'.raising) (hb : b.clearing)
      (hc : ¬ b'.clearing)
  | drop (hw : ¬ b'.work)

/-- No work is forgotten, and none will be by a clear under way. -/
structure Signal.Kept (b : Signal) : Prop where
  seen : b.work → b.up ∨ b.raising
  safe : b.work → b.clearing → b.raising

theorem Signal.Kept.step {b b' : Signal} (h : b.Kept) (hs : b.Step b') : b'.Kept := by
  cases hs with
  | keep hw hu hr hc =>
    constructor
    · intro hwork
      rcases hw hwork with hold | hnew
      · exact (h.seen hold).imp hu hr
      · exact .inr hnew
    · intro hwork hclear
      rcases hw hwork with hold | hnew
      · exact hr (h.safe hold (hc hclear hwork))
      · exact hnew
  | raise hw hu hc hsafe =>
    constructor
    · intro _
      exact .inl hu
    · intro hwork hclear
      exact absurd ⟨hw hwork, hc hclear⟩ hsafe
  | clear hw hr hb hc =>
    constructor
    · intro hwork
      exact .inr (hr (h.safe (hw hwork) hb))
    · intro _ hclear
      exact absurd hclear hc
  | drop hw =>
    constructor
    · intro hwork
      exact absurd hwork hw
    · intro hwork
      exact absurd hwork hw

end GalaLua.Library
