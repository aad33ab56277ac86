import NiosSnake.QueueRefinement
import NiosSnake.Bounds
import NiosSnake.Screen
import NiosSnake.Score
import NiosSnake.Scanout
import NiosSnake.OldSquare
import NiosSnake.MainLoop
import NiosSnake.Presentation
import NiosSnake.WordOrder
import NiosSnake.Blanking
import NiosSnake.Buttons
import NiosSnake.Conversation
import NiosSnake.Forecast
import NiosSnake.Fresh
import NiosSnake.Steering
import NiosSnake.Tour
import NiosSnake.Registrations
import NiosSnake.ConsoleGames
import NiosSnake.Bus
import NiosSnake.Chip
import NiosSnake.Picture
import NiosSnake.ScorePort
