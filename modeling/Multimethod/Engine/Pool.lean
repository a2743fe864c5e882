import Multimethod.Engine

/-!
# Shared engines

Several holders may share one engine, and each then sees the changes of the others. A `Pool` keeps
the shared engines by place, and a `Handle` is either an engine of its holder's own or the place of
a shared one. Place zero holds the default engine, which every holder can reach.
-/

set_option autoImplicit false
set_option relaxedAutoImplicit false

namespace Multimethod

/-- The shared engines. -/
structure Pool where
  engines : List Engine

/-- How a holder reaches an engine. -/
inductive Handle where
  /-- An engine that nobody else has. -/
  | own (engine : Engine)
  /-- The engine at a place of the pool. -/
  | shared (place : Nat)

/-- The handle of the default engine. -/
def Handle.default : Handle :=
  .shared 0

namespace Pool

/-- The pool in which only the default engine is shared. -/
def initial : Pool :=
  ⟨[.standard]⟩

/-- The engine that a handle reaches. -/
def read (pool : Pool) : Handle → Engine
  | .own engine => engine
  | .shared place => pool.engines.getD place .standard

/-- The pool and the handle after the engine of the handle has changed. A change of a shared engine
is seen through every handle to it, a change of an own engine through the new handle only. -/
def write (pool : Pool) (handle : Handle) (engine : Engine) : Pool × Handle :=
  match handle with
  | .own _ => (pool, .own engine)
  | .shared place => (⟨pool.engines.set place engine⟩, .shared place)

/-- The pool with one more shared engine, and its handle. -/
def share (pool : Pool) (engine : Engine) : Pool × Handle :=
  (⟨pool.engines ++ [engine]⟩, .shared pool.engines.length)

/-- The engine of a handle as a log shows it, with a mark on shared ones. -/
def inspect (pool : Pool) (handle : Handle) : String :=
  match handle with
  | .own engine => engine.inspect
  | .shared _ => "SharedTyped(" ++ (pool.read handle).inspect ++ ")"

end Pool

end Multimethod
