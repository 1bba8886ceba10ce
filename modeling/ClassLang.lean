import ClassLang.Main
import ClassLang.Proofs.CircularImports
import ClassLang.Proofs.ClassPlaces
import ClassLang.Proofs.CodeMeaning
import ClassLang.Proofs.DecodedClasses
import ClassLang.Proofs.FileRequests
import ClassLang.Proofs.HostNames
import ClassLang.Proofs.IntegerPowers
import ClassLang.Proofs.KeptObjects
import ClassLang.Proofs.LineColumns
import ClassLang.Proofs.MemberTables
import ClassLang.Proofs.OnDemand
import ClassLang.Proofs.OutputFiles
import ClassLang.Proofs.PrintedCalls
import ClassLang.Proofs.PrintingEnds
import ClassLang.Proofs.SearchDepth
import ClassLang.Proofs.SessionHistory
import ClassLang.Proofs.SkippedLines
import ClassLang.Proofs.TypedPlaces
import ClassLang.Proofs.WrittenLiterals
