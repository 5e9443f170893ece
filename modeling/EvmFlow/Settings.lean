import EvmFlow.Compiler
import EvmFlow.Text.Quoted

/-!
# Settings

* `LogSettings`, `Settings`, `Settings.standard`: what can be set, with its defaults;
* `Settings.render`: the settings as a settings file.
-/

namespace EvmFlow

/-- The settings of the log: how much is logged, the file that takes a copy, the size of such a file
and the number of old ones kept, whether these are compressed, and whether single blocks
are logged. -/
structure LogSettings where
  verbosity : Int := 3
  file : String := ""
  maxSizeMB : Int := 100
  maxBackups : Int := 3
  compress : Bool := false
  debug : Bool := false
deriving DecidableEq

/-- The settings of the program. -/
structure Settings where
  compiler : CompilerSettings
  log : LogSettings := {}
deriving DecidableEq

/-- The default settings where a number of threads run at a time. -/
def Settings.standard (threads : Nat) : Settings where
  compiler := .standard threads

/-- One entry of a settings file. -/
def settingLine (key value : String) : String := s!"{key} = {value}\n"

/-- The entries of the compiler's settings. -/
def CompilerSettings.render (s : CompilerSettings) : String :=
  settingLine "CacheSize" (toString s.cacheSize)
    ++ settingLine "Workers" (toString s.workers)
    ++ settingLine "Optimize" (toString s.optimize)

/-- The entries of the log's settings. -/
def LogSettings.render (s : LogSettings) : String :=
  settingLine "Verbosity" (toString s.verbosity)
    ++ settingLine "File" (Quoted.render s.file)
    ++ settingLine "MaxSizeMB" (toString s.maxSizeMB)
    ++ settingLine "MaxBackups" (toString s.maxBackups)
    ++ settingLine "Compress" (toString s.compress)
    ++ settingLine "Debug" (toString s.debug)

/-- The settings as the text of a settings file. -/
def Settings.render (s : Settings) : String :=
  "[Compiler]\n" ++ s.compiler.render ++ "\n[Log]\n" ++ s.log.render

end EvmFlow
