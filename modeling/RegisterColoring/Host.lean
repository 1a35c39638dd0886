import RegisterColoring.Host.Filter
import RegisterColoring.Host.OptionFile
import RegisterColoring.Session

namespace RegisterColoring

/-- Option files are written in TOML. The filter of a journal is a list of limits for topics, with
the given level for those that are not named, and a regular expression. -/
def Readers.standard : Readers where
  options := Options.parse
  entries spec level? :=
    let (given, complaints) := Filter.parse spec
    let filter := match level? with
      | some level => given.insert ⟨none, some level⟩
      | none => given
    (filter.admits, complaints.map (·.message))

end RegisterColoring
