import Workflow.Layout.Json
import Workflow.Toml.Reader

/-!
# Settings

The settings of the editor have a section for the layout, one for saving and one for
polling.  Every section and every field may be left out.
-/

namespace Workflow

open Json

structure SaveSettings where
  /-- The number of requests that may wait to be saved. -/
  bufferSize : UInt64 := 16

structure PollSettings where
  /-- The wait between two attempts, in milliseconds. -/
  interval : UInt64 := 1000
  maxAttempts : UInt32 := 30

structure Settings where
  layout : LayoutSettings Float := .standard
  save : SaveSettings := {}
  poll : PollSettings := {}

/-!
# In JSON
-/

namespace SaveSettings

def fields : List String :=
  ["buffer_size"]

def ofJsonWith? (surplus : Surplus) (v : Json) : Option SaveSettings := do
  let d : SaveSettings := {}
  let ms <- recordWith? surplus fields v
  let bufferSize <- defaulted ms "buffer_size" d.bufferSize word64?
  return { bufferSize }

end SaveSettings

namespace PollSettings

def fields : List String :=
  ["interval_ms", "max_attempts"]

def ofJsonWith? (surplus : Surplus) (v : Json) : Option PollSettings := do
  let d : PollSettings := {}
  let ms <- recordWith? surplus fields v
  let interval <- defaulted ms "interval_ms" d.interval word64?
  let maxAttempts <- defaulted ms "max_attempts" d.maxAttempts word32?
  return { interval, maxAttempts }

def ofJson? : Json -> Option PollSettings :=
  ofJsonWith? .refused

end PollSettings

namespace Settings

def fields : List String :=
  ["layout", "save", "poll"]

def ofJsonWith? (surplus : Surplus) (v : Json) : Option Settings := do
  let d : Settings := {}
  let ms <- recordWith? surplus fields v
  let layout <- defaulted ms "layout" d.layout (LayoutSettings.ofJsonWith? surplus)
  let save <- defaulted ms "save" d.save (SaveSettings.ofJsonWith? surplus)
  let poll <- defaulted ms "poll" d.poll (PollSettings.ofJsonWith? surplus)
  return { layout, save, poll }

def ofJson? : Json -> Option Settings :=
  ofJsonWith? .refused

/-!
# In TOML
-/

/-- The settings a text holds.  An array may go on after the fields of its section. -/
def parse? (text : String) : Option Settings :=
  (Toml.parse? text).bind (ofJsonWith? .ignored)

end Settings
end Workflow
