import Gpgmepp.CIntegers
import Gpgmepp.FlagsClass
import Gpgmepp.FlagsAlgebra
import Gpgmepp.FlagsRefinement
import Gpgmepp.FlagsOutput
import Gpgmepp.SplitIntoStringViews
import Gpgmepp.SplitMaximalRuns
import Gpgmepp.CStringArray
import Gpgmepp.Strcmp
import Gpgmepp.ErrorClass
import Gpgmepp.CommandLine
